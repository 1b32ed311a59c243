import OpenUH.Lno.FractionExactness

/-!
# Sequences of operations on fractions

The exact values run beside the fractions.  A sequence stays exact or flagged
as long as each of its operations is safe where it is performed, and no longer.
-/

namespace OpenUH.Lno.Fractions

open Lno.SystemOfEquations

/-! ## Exact values -/

/-- An exact value computed before, zero where there is none. -/
def exactResult (exacts : List (Option ℚ)) (index : Nat) : Option ℚ :=
  exacts.getD index (some 0)

/-- The exact value of an operation, if it has one. -/
def exactValue (exacts : List (Option ℚ)) : Operation → Option ℚ
  | .ofInt n => some n
  | .ofPair n d => exactQuotient n d
  | .add left right =>
      Option.map₂ (· + ·) (exactResult exacts left) (exactResult exacts right)
  | .sub left right =>
      Option.map₂ (· - ·) (exactResult exacts left) (exactResult exacts right)
  | .mul left right =>
      Option.map₂ (· * ·) (exactResult exacts left) (exactResult exacts right)
  | .div left right =>
      (exactResult exacts left).bind fun value =>
        (exactResult exacts right).bind fun divisor =>
          exactQuotient value divisor
  | .neg operand => (exactResult exacts operand).map fun value => -value
  | .abs operand => (exactResult exacts operand).map fun value => |value|

/-- The results of a sequence, and their exact values. -/
structure ExactState extends State where
  exacts : List (Option ℚ)

/-- Nothing is computed. -/
def ExactState.start : ExactState := { State.start with exacts := [] }

/-- One operation, beside its exact value. -/
def ExactState.perform (state : ExactState) (operation : Operation) : ExactState :=
  { state.toState.perform operation with
    exacts := state.exacts ++ [exactValue state.exacts operation] }

/-- A sequence of operations. -/
def perform (operations : List Operation) : ExactState :=
  operations.foldl ExactState.perform .start

theorem perform_concat {operations : List Operation} {operation : Operation} :
    perform (operations ++ [operation]) = (perform operations).perform operation := by
  simp [perform]

/-- The fraction is exact. -/
def Exact (f : Frac) (exact : Option ℚ) : Prop :=
  ∃ q, exact = some q ∧ Represents f q

/-- The comparisons of two fractions are those of their values. -/
structure Compares (left right : Frac) (value other : ℚ) : Prop where
  eq : eq left right = true ↔ value = other
  lt : lt left right = true ↔ value < other
  le : le left right = true ↔ value ≤ other

/--
Every result is exact and in normal form, is compared as its exact value, and
is converted to an integer just where that is an integer.
-/
structure Faithful (state : ExactState) : Prop where
  exact : List.Forall₂ Exact state.results state.exacts
  compares : ∀ left right value other,
    exactResult state.exacts left = some value →
    exactResult state.exacts right = some other →
    Compares (state.result left) (state.result right) value other
  integer : ∀ operand value, exactResult state.exacts operand = some value →
    ∀ number, integer (state.result operand) = some number ↔ value = number

/-- The flag is set, or the results are faithful. -/
def ExactState.Sound (state : ExactState) : Prop :=
  state.exception = true ∨ Faithful state

/-- The integers of an operation are of their types. -/
def Operation.Fits : Operation → Prop
  | .ofInt n => Fits32 n
  | .ofPair n d => Fits32 n ∧ Fits32 d
  | _ => True

/--
The operation is exact or sets the flag.  A division by zero sets it only where
the numerator divided is not 0, 1 or -1.
-/
def Operation.Safe (state : State) : Operation → Prop
  | .ofPair n d => Handled n d
  | .div left right =>
      (state.result right).n = 0 → 2 ≤ |(state.result left).n|
  | _ => True

variable {f g : Frac} {p q : ℚ} {n d : Int}

/-! ## Fractions in normal form -/

theorem fracIty_eq {value : Int} (small : |value| ≤ 2 ^ 63 - 1) : fracIty value = value := by
  have bounds := abs_le.1 small
  exact (Int.bmod_eq_iff (by decide)).2 ⟨by omega, by omega, by simp⟩

theorem represents_zero : Represents .zero 0 :=
  ⟨Int.one_pos, rfl, by decide, one_le_fracMax, by simp [Frac.zero]⟩

/-- A product of two components. -/
theorem abs_product_le {x y : Int} (left : |x| ≤ fracMax) (right : |y| ≤ fracMax) :
    |x * y| ≤ 2 ^ 62 - 1 := by
  rw [abs_mul]
  calc |x| * |y| ≤ fracMax * fracMax :=
        mul_le_mul left right (abs_nonneg y) (by decide)
    _ ≤ 2 ^ 62 - 1 := by decide

theorem Represents.abs_denominator (represents : Represents f q) :
    |f.d| ≤ fracMax := by
  rw [abs_of_pos represents.positive]
  exact represents.denominator

theorem Represents.nonzero (represents : Represents f q) : (f.d : ℚ) ≠ 0 := by
  exact_mod_cast represents.positive.ne'

theorem Represents.zero_iff (represents : Represents f q) : f.n = 0 ↔ q = 0 := by
  rw [← represents.value, div_eq_zero_iff, or_iff_left represents.nonzero]
  exact Int.cast_eq_zero.symm

/-- Fractions in normal form are equal where their values are. -/
theorem Represents.ext (left : Represents f q) (right : Represents g q) : f = g := by
  have cross : f.n * g.d = g.n * f.d := by
    have same := left.value.trans right.value.symm
    rw [div_eq_div_iff left.nonzero right.nonzero] at same
    exact_mod_cast same
  have denominators : f.d = g.d := by
    apply Int.dvd_antisymm left.positive.le right.positive.le
    · refine Int.dvd_of_dvd_mul_right_of_gcd_one (b := f.n) ?_ ?_
      · exact ⟨g.n, by rw [mul_comm, mul_comm f.d, ← cross, mul_comm]⟩
      · rw [Int.gcd_comm]
        exact left.coprime
    · refine Int.dvd_of_dvd_mul_right_of_gcd_one (b := g.n) ?_ ?_
      · exact ⟨f.n, by rw [mul_comm, mul_comm g.d, cross, mul_comm]⟩
      · rw [Int.gcd_comm]
        exact right.coprime
  have numerators : f.n = g.n := by
    rw [denominators] at cross
    exact mul_right_cancel₀ right.positive.ne' cross
  cases f
  cases g
  simp only at denominators numerators
  rw [denominators, numerators]

theorem Represents.compares (left : Represents f p) (right : Represents g q) :
    Compares f g p q := by
  have sizes : fracIty (f.n * g.d) = f.n * g.d ∧ fracIty (g.n * f.d) = g.n * f.d := by
    constructor
    · exact fracIty_eq ((abs_product_le left.numerator right.abs_denominator).trans (by decide))
    · exact fracIty_eq ((abs_product_le right.numerator left.abs_denominator).trans (by decide))
  have positive : (0 : ℚ) < f.d := by exact_mod_cast left.positive
  have positive' : (0 : ℚ) < g.d := by exact_mod_cast right.positive
  constructor
  · rw [eq, Bool.and_eq_true, beq_iff_eq, beq_iff_eq]
    constructor
    · rintro ⟨numerators, denominators⟩
      rw [← left.value, ← right.value, numerators, denominators]
    · rintro rfl
      rw [left.ext right]
      exact ⟨rfl, rfl⟩
  · rw [lt, decide_eq_true_iff, sizes.1, sizes.2, ← left.value, ← right.value,
      div_lt_div_iff₀ positive positive']
    exact_mod_cast Iff.rfl
  · rw [le, decide_eq_true_iff, sizes.1, sizes.2, ← left.value, ← right.value,
      div_le_div_iff₀ positive positive']
    exact_mod_cast Iff.rfl

theorem Represents.integer (represents : Represents f q) (number : Int) :
    integer f = some number ↔ q = number := by
  have value := represents.value
  rw [Fractions.integer]
  constructor
  · intro found
    split at found
    · rename_i one
      cases found
      rw [← value, one]
      simp
    · cases found
  · rintro rfl
    rw [div_eq_iff represents.nonzero] at value
    have product : f.n = number * f.d := by exact_mod_cast value
    have divides : f.d.natAbs = 1 := by
      rw [← represents.coprime, Int.gcd_comm, product, Int.gcd_mul_left_right]
    have one : f.d = 1 := by
      have := represents.positive
      omega
    rw [if_pos one, product, one, mul_one]

/-! ## The results of a sequence -/

theorem exact_getD {results : List Frac} {exacts : List (Option ℚ)}
    (exact : List.Forall₂ Exact results exacts) (index : Nat) :
    Exact (results.getD index .zero) (exacts.getD index (some 0)) := by
  induction exact generalizing index with
  | nil => exact ⟨0, rfl, represents_zero⟩
  | cons here _ ih =>
      cases index with
      | zero => exact here
      | succ index => exact ih index

theorem Faithful.result {state : ExactState}
    (exact : List.Forall₂ Exact state.results state.exacts) (index : Nat) :
    ∃ q, exactResult state.exacts index = some q ∧ Represents (state.result index) q :=
  exact_getD exact index

/-- What the exact results say of each result. -/
theorem faithful_iff {state : ExactState} :
    Faithful state ↔ List.Forall₂ Exact state.results state.exacts := by
  constructor
  · exact Faithful.exact
  · intro exact
    have result : ∀ index value,
        exactResult state.exacts index = some value →
        Represents (state.result index) value := by
      intro index value found
      obtain ⟨q, found', represents⟩ := Faithful.result exact index
      rw [found] at found'
      rwa [← Option.some.inj found'] at represents
    exact ⟨exact, fun left right value other found found' =>
      (result left value found).compares (result right other found'),
      fun operand value found => (result operand value found).integer⟩

/-! ## Arithmetic -/

/-- A quotient of intermediate results is exact or flagged where handled. -/
theorem ofIty_iff (left : |n| ≤ 2 ^ 63 - 1) (right : |d| ≤ 2 ^ 63 - 1) :
    ExactOrFlagged (ofIty n d false) (exactQuotient n d) ↔ (d = 0 → |n| ≤ fracMax → 2 ≤ |n|) := by
  have fits : ∀ {x : Int}, szOk x = true → Fits32 x := by
    intro x ok
    exact fits_of_abs (szOk_iff.1 ok)
  simp only [ofIty, fracIty_eq left, fracIty_eq right]
  by_cases ok : szOk n = true
  · rw [checksz_of_ok ok]
    by_cases ok' : szOk d = true
    · rw [checksz_of_ok ok', ofPair_iff (fits ok) (fits ok')]
      constructor
      · exact fun handled zero _ => handled.zero zero
      · exact fun large => handled_of_small ok ok' fun zero =>
          large zero (szOk_iff.1 ok)
    · refine iff_of_true (Or.inl ?_) ?_
      · dsimp only
        rw [checksz_flag (Bool.eq_false_iff.2 ok')]
        exact ofPair_true
      · rintro rfl
        exact absurd rfl ok'
  · refine iff_of_true (Or.inl ?_) fun _ small => absurd (szOk_iff.2 small) ok
    rw [checksz_flag (Bool.eq_false_iff.2 ok), checksz_true]
    exact ofPair_true

theorem exactQuotient_of_nonzero {value divisor : ℚ} (nonzero : divisor ≠ 0) :
    exactQuotient value divisor = some (value / divisor) := by
  rw [exactQuotient, if_neg nonzero]

section

variable (left : Represents f p) (right : Represents g q)

include left right

/-- A sum, difference or product over the product of the denominators. -/
theorem ofIty_over (size : |n| ≤ 2 ^ 63 - 1) {value : ℚ} (exact : (n : ℚ) / (f.d * g.d) = value) :
    ExactOrFlagged (ofIty n (f.d * g.d) false) (some value) := by
  have nonzero : f.d * g.d ≠ 0 := mul_ne_zero left.positive.ne' right.positive.ne'
  have quotient : exactQuotient n ((f.d * g.d : Int) : ℚ) = some value := by
    rw [exactQuotient_of_nonzero (by exact_mod_cast nonzero)]
    push_cast
    rw [exact]
  rw [← quotient]
  exact (ofIty_iff size ((abs_product_le left.abs_denominator
    right.abs_denominator).trans (by decide))).2 fun zero => absurd zero nonzero

theorem add_exact :
    ExactOrFlagged (add f g false) (some (p + q)) := by
  refine ofIty_over left right ?_ ?_
  · have first := abs_product_le left.numerator right.abs_denominator
    have second := abs_product_le right.numerator left.abs_denominator
    have both := abs_add_le (f.n * g.d) (g.n * f.d)
    omega
  · rw [← left.value, ← right.value, div_add_div _ _ left.nonzero right.nonzero]
    push_cast
    ring

theorem sub_exact :
    ExactOrFlagged (sub f g false) (some (p - q)) := by
  refine ofIty_over left right ?_ ?_
  · have first := abs_product_le left.numerator right.abs_denominator
    have second := abs_product_le right.numerator left.abs_denominator
    have both := abs_sub (f.n * g.d) (g.n * f.d)
    omega
  · rw [← left.value, ← right.value, div_sub_div _ _ left.nonzero right.nonzero]
    push_cast
    ring

theorem mul_exact :
    ExactOrFlagged (mul f g false) (some (p * q)) := by
  refine ofIty_over left right ?_ ?_
  · exact (abs_product_le left.numerator right.numerator).trans (by decide)
  · rw [← left.value, ← right.value, div_mul_div_comm]
    push_cast
    rfl

theorem div_exact_iff :
    ExactOrFlagged (div f g false) (exactQuotient p q) ↔ (g.n = 0 → 2 ≤ |f.n|) := by
  have quotient : exactQuotient ((f.n * g.d : Int) : ℚ) ((f.d * g.n : Int) : ℚ) =
      exactQuotient p q := by
    by_cases zero : g.n = 0
    · rw [zero, right.zero_iff.1 zero]
      simp [exactQuotient]
    · have zero' : (g.n : ℚ) ≠ 0 := by exact_mod_cast zero
      rw [exactQuotient_of_nonzero (mt right.zero_iff.2 zero), exactQuotient_of_nonzero (by
          push_cast
          exact mul_ne_zero left.nonzero zero'),
        ← left.value, ← right.value, div_div_div_eq]
      push_cast
      rfl
  rw [← quotient]
  refine (ofIty_iff
    ((abs_product_le left.numerator right.abs_denominator).trans (by decide))
    ((abs_product_le left.abs_denominator right.numerator).trans (by decide))).trans ?_
  rw [mul_eq_zero, or_iff_right left.positive.ne']
  constructor
  all_goals
    intro handled zero
    have one : g.d = 1 := by
      have coprime := right.coprime
      rw [zero, Int.gcd_zero_left] at coprime
      have := right.positive
      omega
  · have kept := handled zero
    rw [one, mul_one] at kept
    exact kept left.numerator
  · intro _
    rw [one, mul_one]
    exact handled zero

end

theorem neg_exact (represents : Represents f q) : Represents (neg f) (-q) := by
  have negated : (neg f).n = -f.n := by
    have size := represents.numerator
    rw [← abs_neg] at size
    exact (fits_of_abs size).int32_eq
  refine ⟨represents.positive, ?_, ?_, represents.denominator, ?_⟩
  · rw [negated, Int.neg_gcd]
    exact represents.coprime
  · rw [negated, abs_neg]
    exact represents.numerator
  · rw [negated, ← represents.value]
    push_cast
    exact neg_div _ _

theorem abs_exact (represents : Represents f q) : Represents (abs f) |q| := by
  have sign : 0 < (f.d : ℚ) := by exact_mod_cast represents.positive
  by_cases negative : f.n < 0
  · have below : q < 0 := by
      rw [← represents.value]
      exact div_neg_of_neg_of_pos (by exact_mod_cast negative) sign
    have same : abs f = neg f := by
      rw [abs, if_pos negative]
      rfl
    rw [same, abs_of_neg below]
    exact neg_exact represents
  · have above : 0 ≤ q := by
      rw [← represents.value]
      exact div_nonneg (by exact_mod_cast not_lt.1 negative) sign.le
    have same : abs f = f := by
      rw [abs, if_neg negative]
    rwa [same, abs_of_nonneg above]

/-! ## One operation -/

variable {state : ExactState} {operation : Operation}

theorem compute_flagged (exception : state.exception = true) :
    (state.compute operation state.exception).2 = true := by
  rw [exception]
  cases operation with
  | ofInt n => exact checksz_true
  | ofPair n d => exact ofPair_true
  | add | sub | mul | div => exact ofIty_true
  | neg | abs => rfl

/-- A safe operation, and no other, computes an exact fraction or flags. -/
theorem compute_iff (exact : List.Forall₂ Exact state.results state.exacts)
    (fits : operation.Fits) :
    ExactOrFlagged (state.compute operation false)
        (exactValue state.exacts operation) ↔ operation.Safe state.toState := by
  cases operation with
  | ofInt n =>
      refine iff_of_true ?_ trivial
      by_cases ok : szOk n = true
      · simp only [State.compute, Fractions.ofInt, checksz_of_ok ok]
        exact Or.inr ⟨n, rfl, Int.one_pos, Int.gcd_one_right n, szOk_iff.1 ok,
          one_le_fracMax, by simp⟩
      · exact Or.inl (checksz_flag (Bool.eq_false_iff.2 ok))
  | ofPair n d => exact ofPair_iff fits.1 fits.2
  | add left right =>
      obtain ⟨p, found, represents⟩ := Faithful.result exact left
      obtain ⟨q, found', represents'⟩ := Faithful.result exact right
      rw [exactValue, found, found']
      exact iff_of_true (add_exact represents represents') trivial
  | sub left right =>
      obtain ⟨p, found, represents⟩ := Faithful.result exact left
      obtain ⟨q, found', represents'⟩ := Faithful.result exact right
      rw [exactValue, found, found']
      exact iff_of_true (sub_exact represents represents') trivial
  | mul left right =>
      obtain ⟨p, found, represents⟩ := Faithful.result exact left
      obtain ⟨q, found', represents'⟩ := Faithful.result exact right
      rw [exactValue, found, found']
      exact iff_of_true (mul_exact represents represents') trivial
  | div left right =>
      obtain ⟨p, found, represents⟩ := Faithful.result exact left
      obtain ⟨q, found', represents'⟩ := Faithful.result exact right
      rw [exactValue, found, found']
      exact div_exact_iff represents represents'
  | neg operand =>
      obtain ⟨q, found, represents⟩ := Faithful.result exact operand
      rw [exactValue, found]
      exact iff_of_true (Or.inr ⟨-q, rfl, neg_exact represents⟩) trivial
  | abs operand =>
      obtain ⟨q, found, represents⟩ := Faithful.result exact operand
      rw [exactValue, found]
      exact iff_of_true (Or.inr ⟨|q|, rfl, abs_exact represents⟩) trivial

theorem sound_start : ExactState.start.Sound :=
  Or.inr (faithful_iff.2 .nil)

/-- Once the flag is set, every sequence is sound. -/
theorem sound_of_exception (exception : state.exception = true) : (state.perform operation).Sound :=
  Or.inl (compute_flagged exception)

/-- Until then, a step keeps the results faithful just where it is safe. -/
theorem sound_perform_iff (exception : state.exception = false)
    (sound : state.Sound) (fits : operation.Fits) :
    (state.perform operation).Sound ↔ operation.Safe state.toState := by
  have faithful : Faithful state := sound.resolve_left (by rw [exception]; exact Bool.false_ne_true)
  rw [← compute_iff faithful.exact fits]
  have result : (state.perform operation).results =
      state.results ++ [(state.compute operation false).1] := by
    rw [← exception]
    rfl
  have flag : (state.perform operation).exception = (state.compute operation false).2 := by
    rw [← exception]
    rfl
  rw [ExactState.Sound, ExactOrFlagged, flag, faithful_iff, result]
  refine or_congr_right ⟨fun exact => ?_, fun exact => ?_⟩
  · have reversed := List.forall₂_reverse_iff.2 exact
    rw [ExactState.perform, List.reverse_concat, List.reverse_concat] at reversed
    exact (List.forall₂_cons.1 reversed).1
  · exact List.rel_append faithful.exact (.cons exact .nil)

/-! ## Every sequence -/

/-- The integers of a sequence are of their types. -/
def AllFit (operations : List Operation) : Prop :=
  ∀ operation ∈ operations, operation.Fits

/-- Each operation performed before the flag is set is safe. -/
def SafeRun (operations : List Operation) : Prop :=
  ∀ before operation, before ++ [operation] <+: operations →
    (perform before).exception = false →
    operation.Safe (perform before).toState

/-- Dividing one by zero gives one over zero, and no flag. -/
def oneOverZero : List Operation := [.ofInt 1, .ofInt 0, .div 0 1]

/-- Dividing one by two. -/
def oneHalf : List Operation := [.ofInt 1, .ofInt 2, .div 0 1]

end OpenUH.Lno.Fractions
