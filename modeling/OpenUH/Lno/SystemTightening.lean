import OpenUH.Lno.SystemConsistency

/-!
# Division by greatest common divisors

`Take_Gcds` divides the rows of a system by the greatest common divisor of
their coefficients, for an equation of the constant too.  `Gcd_Normalize` does
so with the rows of the work array, and rounds by another formula.
-/

namespace OpenUH.Lno.SystemOfEquations

open Foundation

/-! ## 64-bit arithmetic -/

/-- What is left of a value in an `INT64`. -/
def int64 (value : Int) : Int := Int.bmod value (2 ^ 64)

theorem int64_eq {value : Int} (low : -2 ^ 63 ≤ value) (high : value < 2 ^ 63) :
    int64 value = value :=
  (Int.bmod_eq_iff (by decide)).mpr ⟨by omega, by omega, by simp⟩

/-- `Gcd` for two `INT64`. -/
def gcd64 (i j : Int) : Int :=
  let i := int64 |i|
  let j := int64 |j|
  if i = 0 then
    j
  else if j = 0 then
    i
  else if i > j then
    gcdLoop j.natAbs j i
  else
    gcdLoop i.natAbs i j

theorem gcd64_eq {i j : Int} (left : |i| < 2 ^ 63) (right : |j| < 2 ^ 63) :
    gcd64 i j = Int.gcd i j := by
  have leftNonneg := abs_nonneg i
  have rightNonneg := abs_nonneg j
  have sizes : Int.gcd i j = Int.gcd |i| |j| := by
    rw [Int.gcd, Int.gcd, Int.natAbs_abs, Int.natAbs_abs]
  unfold gcd64
  rw [int64_eq (by omega) left, int64_eq (by omega) right, sizes]
  generalize |i| = i at *
  generalize |j| = j at *
  dsimp only
  split
  · rename_i zero
    rw [zero, Int.gcd_zero_left, Int.natAbs_of_nonneg rightNonneg]
  · split
    · rename_i zero
      rw [zero, Int.gcd_zero_right, Int.natAbs_of_nonneg leftNonneg]
    · split
      · rw [gcdLoop_eq (by omega) leftNonneg (le_refl _), Int.gcd_comm]
      · exact gcdLoop_eq (by omega) rightNonneg (le_refl _)

/-! ## `Take_Gcds` -/

/-- How `Take_Gcds` stops. -/
inductive GcdFault where
  | impossibleGcd
  | divisionByZero
  deriving DecidableEq

/-- The divisor of an inequality. -/
def Row.leGcd (vars : Nat) (row : Row) : Int :=
  (List.range' 1 (vars - 1)).foldl (fun g j => gcd64 g (row.coeff j))
    (row.coeff 0)

/-- The divisor of an equation. -/
def Row.eqGcd (vars : Nat) (row : Row) : Int :=
  (List.range' 0 vars).foldl (fun g j => gcd64 g (row.coeff j)) row.bound

/-- Divide the coefficients, and set the constant. -/
def Row.divideBy (vars : Nat) (divisor bound : Int) (row : Row) : Row where
  coeff col :=
    if col < vars then int32 ((row.coeff col).tdiv divisor) else row.coeff col
  bound := bound
  fits := row.fits_divided vars divisor

/-- `FmtAssert(g>0)`, and the division by `(INT32)g`. -/
def Row.takeGcd (vars : Nat) (g : Int) (constant : Int → Int) (row : Row) : Except GcdFault Row :=
  if g = 0 then
    .ok row
  else if ¬g > 0 then
    .error .impossibleGcd
  else if int32 g = 0 then
    .error .divisionByZero
  else
    .ok (row.divideBy vars (int32 g) (constant (int32 g)))

/-- An inequality; the constant is rounded down. -/
def Row.takeGcdLe (vars : Nat) (row : Row) : Except GcdFault Row :=
  let g := row.leGcd vars
  row.takeGcd vars g fun divisor =>
    if row.bound ≥ 0 then
      row.bound.tdiv divisor
    else
      -(int64 (-row.bound + g - 1)).tdiv divisor

/-- An equation. -/
def Row.takeGcdEq (vars : Nat) (row : Row) : Except GcdFault Row :=
  row.takeGcd vars (row.eqGcd vars) row.bound.tdiv

/-- `Take_Gcds`. -/
def System.takeGcds (system : System) : Except GcdFault System := do
  let le ← system.le.mapM (Row.takeGcdLe system.vars)
  let eq ← system.eq.mapM (Row.takeGcdEq system.vars)
  return { system with le := le, eq := eq }

/-! ## The divisors -/

/-- The greatest common divisor of a start and of a range of coefficients. -/
structure IsGcd (row : Row) (low count : Nat) (start g : Int) : Prop where
  initial : g ∣ start
  coeff : ∀ col, low ≤ col → col < low + count → g ∣ row.coeff col
  greatest : ∀ c, c ∣ start → (∀ col, low ≤ col → col < low + count → c ∣ row.coeff col) → c ∣ g
  small : |g| < 2 ^ 63
  nonneg : 0 < count ∨ 0 ≤ start → 0 ≤ g

theorem gcdLoop64_isGcd {row : Row} {low count : Nat} {start : Int} (small : |start| < 2 ^ 63) :
    IsGcd row low count start
      ((List.range' low count).foldl (fun g j => gcd64 g (row.coeff j)) start) := by
  induction count generalizing low start with
  | zero =>
      refine ⟨dvd_refl _, fun col above below => by omega, fun c divides _ => divides,
        small, fun nonneg => ?_⟩
      exact nonneg.resolve_left (lt_irrefl 0)
  | succ count ih =>
      have own := row.fits low
      have ownSmall : |row.coeff low| < 2 ^ 63 :=
        abs_lt.mpr ⟨by have := own.low; omega, by have := own.high; omega⟩
      have step := gcd64_eq small ownSmall
      have stepSmall : |((Int.gcd start (row.coeff low) : Nat) : Int)| < 2 ^ 63 := by
        rw [abs_of_nonneg (Int.natCast_nonneg _)]
        by_cases zero : start = 0
        · rw [zero, Int.gcd_zero_left, Int.natCast_natAbs]
          exact ownSmall
        · refine lt_of_le_of_lt ?_ small
          exact Int.le_of_dvd (abs_pos.mpr zero) ((dvd_abs _ _).mpr (Int.gcd_dvd_left _ _))
      rw [List.range'_succ, List.foldl_cons, step]
      obtain ⟨isStart, isCoeff, isGreatest, isSmall, isNonneg⟩ :=
        @ih (low + 1) _ stepSmall
      refine ⟨isStart.trans (Int.gcd_dvd_left _ _), fun col above below => ?_,
        fun c divides others => ?_, isSmall,
        fun _ => isNonneg (.inr (Int.natCast_nonneg _))⟩
      · by_cases here : col = low
        · rw [here]
          exact isStart.trans (Int.gcd_dvd_right _ _)
        · exact isCoeff col (by omega) (by omega)
      · exact isGreatest c
          (Int.dvd_coe_gcd divides (others low (le_refl _) (by omega)))
          fun col above below => others col (by omega) (by omega)

/-! ## The rows -/

/-- The inequalities that `Take_Gcds` divides as meant: the only coefficient of
a row is not negative, the divisor has less than 32 bits, and the rounding of
the constant does not wrap. -/
structure Row.ClearLe (vars : Nat) (row : Row) : Prop where
  single : vars = 1 → 0 ≤ row.coeff 0
  divisor : ∀ col < vars, row.coeff col ≠ 0 →
    ∃ other < vars, row.coeff other ≠ 0 ∧ row.coeff other ≠ -2 ^ 31
  constant : ∀ g, (∀ col < vars, g ∣ row.coeff col) →
    ∀ col < vars, row.coeff col ≠ 0 → -row.bound + g ≤ 2 ^ 63

/-- The equations that `Take_Gcds` divides as meant: the constant has a size,
and where there is no coefficient its lower 32 bits are not all zero. -/
structure Row.ClearEq (vars : Nat) (row : Row) : Prop where
  constant : |row.bound| < 2 ^ 63
  divisor : (∀ col < vars, row.coeff col = 0) → row.bound ≠ 0 → int32 row.bound ≠ 0

section Rows

variable {vars : Nat} {row : Row}

theorem Row.abs_coeff_lt (row : Row) (col : Nat) : |row.coeff col| < 2 ^ 63 := by
  have own := row.fits col
  exact abs_lt.mpr ⟨by have := own.low; omega, by have := own.high; omega⟩

/-- The divisor of an inequality. -/
theorem Row.leGcd_spec (positive : 0 < vars) (single : vars = 1 → 0 ≤ row.coeff 0) :
    0 ≤ row.leGcd vars ∧ (∀ col < vars, row.leGcd vars ∣ row.coeff col) ∧
      ∀ c, (∀ col < vars, c ∣ row.coeff col) → c ∣ row.leGcd vars := by
  obtain ⟨initial, coeff, greatest, -, nonneg⟩ :=
    @gcdLoop64_isGcd row 1 (vars - 1) (row.coeff 0) (row.abs_coeff_lt 0)
  refine ⟨nonneg ?_, fun col inside => ?_, fun c divides =>
    greatest c (divides 0 positive) fun col _ below => divides col (by omega)⟩
  · by_cases one : vars = 1
    · exact .inr (single one)
    · exact .inl (by omega)
  · by_cases first : col = 0
    · rw [first]
      exact initial
    · exact coeff col (by omega) (by omega)

/-- The divisor of an equation. -/
theorem Row.eqGcd_spec (positive : 0 < vars) (small : |row.bound| < 2 ^ 63) :
    0 ≤ row.eqGcd vars ∧ row.eqGcd vars ∣ row.bound ∧
      (∀ col < vars, row.eqGcd vars ∣ row.coeff col) ∧
      ∀ c, c ∣ row.bound → (∀ col < vars, c ∣ row.coeff col) → c ∣ row.eqGcd vars := by
  obtain ⟨initial, coeff, greatest, -, nonneg⟩ := @gcdLoop64_isGcd row 0 vars row.bound small
  exact ⟨nonneg (.inl positive), initial,
    fun col inside => coeff col (Nat.zero_le _) (by omega),
    fun c start others => greatest c start fun col _ below =>
      others col (by omega)⟩

/-- A divisor of a coefficient has at most 32 bits. -/
theorem Row.divisor_le {g : Int} {col : Nat} (divides : g ∣ row.coeff col)
    (nonzero : row.coeff col ≠ 0) :
    g ≤ 2 ^ 31 ∧ (row.coeff col ≠ -2 ^ 31 → g < 2 ^ 31) := by
  have own := row.fits col
  have low := own.low
  have high := own.high
  have size := Int.le_of_dvd (abs_pos.mpr nonzero) ((dvd_abs _ _).mpr divides)
  have bounded : |row.coeff col| ≤ 2 ^ 31 := abs_le.mpr ⟨by omega, by omega⟩
  refine ⟨size.trans bounded, fun apart => lt_of_le_of_lt size ?_⟩
  exact abs_lt.mpr ⟨by omega, high⟩

/-- The coefficients of a divided row. -/
theorem Row.coeff_divideBy {divisor bound : Int} (nonzero : divisor ≠ 0)
    (divides : ∀ col < vars, divisor ∣ row.coeff col) (apart : divisor ≠ -1) :
    ∀ col < vars, row.coeff col = divisor * (row.divideBy vars divisor bound).coeff col := by
  intro col inside
  obtain ⟨quotient, isQuotient⟩ := divides col inside
  have fits := row.fits col
  have low := fits.low
  have high := fits.high
  have exactly : (row.coeff col).tdiv divisor = quotient := by
    rw [isQuotient, Int.mul_tdiv_cancel_left _ nonzero]
  have small : Fits32 quotient := by
    rw [isQuotient] at low high
    rcases lt_or_gt_of_ne nonzero with negative | positive
    · have two : divisor ≤ -2 := by omega
      constructor
      · by_contra below
        nlinarith
      · by_contra above
        nlinarith
    · constructor
      · by_contra below
        nlinarith
      · by_contra above
        nlinarith
  have own : (row.divideBy vars divisor bound).coeff col =
      int32 ((row.coeff col).tdiv divisor) := if_pos inside
  rw [own, exactly, small.int32_eq, isQuotient]

/-- The constant of an inequality, rounded down by the formula of
`Take_Gcds`. -/
theorem roundedDown {bound g : Int} (positive : 0 < g) (inside : -bound + g ≤ 2 ^ 63) :
    (if bound ≥ 0 then bound.tdiv g else -(int64 (-bound + g - 1)).tdiv g) = bound / g := by
  split
  · exact Int.tdiv_eq_ediv_of_nonneg (by omega)
  · rename_i negative
    rw [int64_eq (by omega) (by omega), Int.tdiv_eq_ediv_of_nonneg (by omega)]
    have whole := Int.emod_add_mul_ediv bound g
    have low := Int.emod_nonneg bound positive.ne'
    have high := Int.emod_lt_of_pos bound positive
    have rounded : -bound + g - 1 = g - 1 - bound % g + g * -(bound / g) := by
      linarith
    rw [rounded, Int.add_mul_ediv_left _ _ positive.ne',
      Int.ediv_eq_zero_of_lt (by omega) (by omega), Int.zero_add, Int.neg_neg]

/-- An inequality that is clear is divided and keeps its integer points. -/
theorem Row.takeGcdLe_holds (positive : 0 < vars) (clear : row.ClearLe vars) :
    ∃ after, row.takeGcdLe vars = .ok after ∧ ∀ point : Nat → Int,
      after.Holds vars point ↔ row.Holds vars point := by
  obtain ⟨nonneg, divides, greatest⟩ := Row.leGcd_spec positive clear.single
  have rounding := clear.constant (row.leGcd vars) divides
  unfold Row.takeGcdLe Row.takeGcd
  dsimp only
  by_cases zero : row.leGcd vars = 0
  · rw [if_pos zero]
    exact ⟨row, rfl, fun _ => Iff.rfl⟩
  generalize row.leGcd vars = g at *
  have some : ∃ col < vars, row.coeff col ≠ 0 := by
    by_contra none
    push Not at none
    refine zero (Int.zero_dvd.mp (greatest 0 fun col inside => ?_))
    rw [none col inside]
  obtain ⟨col, inside, nonzero⟩ := some
  obtain ⟨other, below, otherNonzero, apart⟩ := clear.divisor col inside nonzero
  have small := (Row.divisor_le (divides other below) otherNonzero).2 apart
  have fits : int32 g = g := (Fits32.mk (by omega) small).int32_eq
  rw [if_neg zero, if_neg (by omega), fits, if_neg zero]
  refine ⟨_, rfl, fun point => ?_⟩
  refine Inequality.holds_divided (by omega) (Row.coeff_divideBy zero divides (by omega)) ?_
  exact roundedDown (by omega) (rounding col inside nonzero)

/-- The 32 bits that are left of a number are no larger than the number. -/
theorem abs_int32_le (value : Int) : |int32 value| ≤ |value| := by
  have fits := fits_int32 value
  by_cases inside : Fits32 value
  · rw [inside.int32_eq]
  · have bounded : |int32 value| ≤ 2 ^ 31 :=
      abs_le.mpr ⟨fits.low, fits.high.le⟩
    refine bounded.trans ?_
    by_contra large
    obtain ⟨low, high⟩ := abs_lt.mp (not_le.mp large)
    exact inside ⟨by omega, high⟩

/-- An equation that is clear is divided and keeps its points. -/
theorem Row.takeGcdEq_holds (positive : 0 < vars) (clear : row.ClearEq vars) :
    ∃ after, row.takeGcdEq vars = .ok after ∧ ∀ point : Nat → Int,
      after.value vars point = after.bound ↔ row.value vars point = row.bound := by
  obtain ⟨nonneg, dividesBound, divides, greatest⟩ := Row.eqGcd_spec positive clear.constant
  unfold Row.takeGcdEq Row.takeGcd
  by_cases zero : row.eqGcd vars = 0
  · rw [if_pos zero]
    exact ⟨row, rfl, fun _ => Iff.rfl⟩
  generalize row.eqGcd vars = g at *
  rw [if_neg zero, if_neg (by omega)]
  by_cases some : ∃ col < vars, row.coeff col ≠ 0
  · obtain ⟨col, inside, nonzero⟩ := some
    obtain ⟨small, -⟩ := Row.divisor_le (divides col inside) nonzero
    have kept : ∃ d, int32 g = d ∧ d ≠ 0 ∧ d ≠ -1 ∧ d ∣ g := by
      by_cases largest : g = 2 ^ 31
      · rw [largest]
        exact ⟨-2 ^ 31, by decide, by decide, by decide, by decide⟩
      · exact ⟨g, (Fits32.mk (by omega) (by omega)).int32_eq, zero, by omega, dvd_refl _⟩
    obtain ⟨d, isDivisor, dNonzero, apart, same⟩ := kept
    rw [isDivisor, if_neg dNonzero]
    refine ⟨_, rfl, fun point => ?_⟩
    exact Inequality.value_eq_divided dNonzero
      (Row.coeff_divideBy dNonzero (fun other below => same.trans (divides other below)) apart)
      (Int.mul_tdiv_cancel' (same.trans dividesBound)).symm
  · push Not at some
    have bound : row.bound ≠ 0 := by
      intro none
      refine zero (Int.zero_dvd.mp (greatest 0 ?_ fun col inside => ?_))
      · rw [none]
      · rw [some col inside]
    have size : |row.bound| = |g| := by
      have whole := greatest row.bound (dvd_refl _) fun col inside =>
        some col inside ▸ dvd_zero _
      rw [Int.abs_eq_natAbs, Int.abs_eq_natAbs, Int.natAbs_eq_of_dvd_dvd whole dividesBound]
    have lower : int32 g ≠ 0 := by
      intro none
      refine clear.divisor some bound ?_
      have whole := Int.dvd_of_bmod_eq_zero none
      refine Int.bmod_eq_zero_of_dvd ((dvd_abs _ _).mp ?_)
      rw [size]
      exact (dvd_abs _ _).mpr whole
    rw [if_neg lower]
    refine ⟨_, rfl, fun point => ?_⟩
    have vanishes : ∀ other : Row, (∀ col < vars, other.coeff col = 0) →
        other.value vars point = 0 := by
      intro other zeros
      rw [Inequality.value_eq_sum]
      refine Finset.sum_eq_zero fun col member => ?_
      rw [zeros col (Finset.mem_range.mp member), Int.cast_zero, zero_mul]
    have quotient : row.bound.tdiv (int32 g) ≠ 0 := by
      have smaller := abs_int32_le g
      rw [← size, Int.abs_eq_natAbs, Int.abs_eq_natAbs] at smaller
      have several : 1 ≤ row.bound.natAbs / (int32 g).natAbs :=
        (Nat.one_le_div_iff (Int.natAbs_pos.mpr lower)).mpr (by omega)
      have natural : (row.bound.tdiv (int32 g)).natAbs =
          row.bound.natAbs / (int32 g).natAbs := Int.natAbs_tdiv _ _
      omega
    rw [vanishes row some, vanishes _ fun col inside => ?_]
    · exact iff_of_false (fun same => quotient same.symm)
        fun same => bound same.symm
    · change (if col < vars then int32 ((row.coeff col).tdiv (int32 g))
        else row.coeff col) = 0
      rw [if_pos inside, some col inside, Int.zero_tdiv]
      rfl

end Rows

/-! ## Systems -/

/-- Where each row is divided, the rows are divided in order. -/
theorem mapM_holds {divide : Row → Except GcdFault Row} {keeps : Row → Row → Prop} (rows : List Row)
    (each : ∀ row ∈ rows, ∃ after, divide row = .ok after ∧ keeps row after) :
    ∃ afters, rows.mapM divide = .ok afters ∧ List.Forall₂ keeps rows afters := by
  induction rows with
  | nil => exact ⟨[], rfl, .nil⟩
  | cons row rows ih =>
      obtain ⟨after, divided, kept⟩ := each row List.mem_cons_self
      obtain ⟨afters, rest, others⟩ := ih fun other member =>
        each other (List.mem_cons_of_mem _ member)
      refine ⟨after :: afters, ?_, .cons kept others⟩
      rw [List.mapM_cons, divided]
      change (do let rows ← rows.mapM divide; pure (after :: rows)) = _
      rw [rest]
      rfl

theorem forall_mem_iff {keeps : Row → Row → Prop} {first second : Row → Prop}
    {rows afters : List Row} (pairs : List.Forall₂ keeps rows afters)
    (same : ∀ row after, keeps row after → (second after ↔ first row)) :
    (∀ after ∈ afters, second after) ↔ ∀ row ∈ rows, first row := by
  induction pairs with
  | nil =>
      refine iff_of_true (fun _ member => ?_) fun _ member => ?_
      · exact absurd member List.not_mem_nil
      · exact absurd member List.not_mem_nil
  | cons kept _ ih =>
      rw [List.forall_mem_cons, List.forall_mem_cons, same _ _ kept, ih]

/-- The systems whose rows `Take_Gcds` divides as meant. -/
structure System.GcdClear (system : System) : Prop where
  le : ∀ row ∈ system.le, row.ClearLe system.vars
  eq : ∀ row ∈ system.eq, row.ClearEq system.vars

/--
`Take_Gcds` divides a system that is clear, and `Gcd_Normalize` a work array
without the smallest number, with the same integer solutions.
-/
theorem gcds_keepSolutions {system : System} {work : Work}
    (positive : 0 < system.vars) (clear : system.GcdClear)
    (noSmallest : ∀ index < work.rows, (work.row index).NoSmallest work.cols) :
    (∃ after, system.takeGcds = .ok after ∧ ∀ point : Nat → Int,
      after.Solves point ↔ system.Solves point) ∧
      ∀ point : Nat → Int, work.gcdNormalize.Holds point ↔ work.Holds point := by
  refine ⟨?_, fun point => Work.gcdNormalize_holds noSmallest⟩
  obtain ⟨le, dividedLe, keptLe⟩ := mapM_holds system.le fun row member =>
    Row.takeGcdLe_holds positive (clear.le row member)
  obtain ⟨eq, dividedEq, keptEq⟩ := mapM_holds system.eq fun row member =>
    Row.takeGcdEq_holds positive (clear.eq row member)
  refine ⟨{ system with le := le, eq := eq }, ?_, fun point => ?_⟩
  · unfold System.takeGcds
    rw [dividedLe]
    change (do let eq ← system.eq.mapM (Row.takeGcdEq system.vars)
               pure { system with le := le, eq := eq }) = _
    rw [dividedEq]
    rfl
  · have sameLe := forall_mem_iff keptLe fun row after kept => kept point
    have sameEq := forall_mem_iff keptEq fun row after kept => kept point
    exact ⟨fun solution => ⟨sameLe.mp solution.le, sameEq.mp solution.eq⟩,
      fun solution => ⟨sameLe.mpr solution.le, sameEq.mpr solution.eq⟩⟩

/-- The inequality `3 x ≤ -7` and the equation `x + y = 1`. -/
def tripleSystem : System where
  le := [bound 3 (-7) fits_three]
  eq := [unitEquation]
  vars := 2

theorem gcds_keepSolutions_tripleSystem :
    (∃ after, tripleSystem.takeGcds = .ok after ∧ ∀ point : Nat → Int,
      after.Solves point ↔ tripleSystem.Solves point) ∧
      ∀ point : Nat → Int,
        (noRows 2).gcdNormalize.Holds point ↔ (noRows 2).Holds point := by
  refine gcds_keepSolutions (by decide) ⟨?_, ?_⟩ fun index below =>
    absurd below (Nat.not_lt_zero index)
  · intro row member
    cases List.mem_singleton.mp member
    refine ⟨fun one => absurd one (by decide), fun _ _ _ =>
      ⟨0, by decide, by decide, by decide⟩, fun g divides _ _ _ => ?_⟩
    have small := Int.le_of_dvd (by decide) (divides 0 (by decide))
    change g ≤ 3 at small
    change -(-7) + g ≤ 2 ^ 63
    omega
  · intro row member
    cases List.mem_singleton.mp member
    exact ⟨by decide, fun zero => absurd (zero 0 (by decide)) (by decide)⟩

/-- The inequality `-x ≤ 0` has one variable, and its divisor is negative. -/
theorem gcds_not_keepSolutions : ¬∀ (system : System) (work : Work),
    0 < system.vars →
      (∃ after, system.takeGcds = .ok after ∧ ∀ point : Nat → Int,
        after.Solves point ↔ system.Solves point) ∧
        ∀ point : Nat → Int,
          work.gcdNormalize.Holds point ↔ work.Holds point := by
  intro all
  obtain ⟨⟨after, divided, -⟩, -⟩ := all
    { le := [bound (-1) 0 ⟨by decide, by decide⟩], eq := [], vars := 1 }
    (noRows 1) (by decide)
  cases divided

end OpenUH.Lno.SystemOfEquations
