import OpenUH.Lno.SystemRedundancy

/-!
# Fourier–Motzkin elimination

`Project` eliminates a variable from the work array: each row with a positive
coefficient is combined with each row with a negative one, and overwritten by
the last row when it is done; then the negative rows are compacted away.
-/

namespace OpenUH.Lno.SystemOfEquations

open Foundation

/-- `SOE_MAX_WORK_ROWS`. -/
def maxWorkRows : Nat := 1000

namespace Work

/-! ## One combination -/

/-- A coefficient of the combination of two rows. -/
def elimCoeff (plus_mult minus_mult plus minus : Int) : Int :=
  if minus_mult = 1 ∧ plus_mult = 1 then
    plus + minus
  else
    minus_mult * plus + plus_mult * minus

/-- The new coefficients fit in 32 bits. -/
abbrev Small (work : Work) (plus_mult minus_mult : Int) (plus minus minVar : Nat) : Prop :=
  ∀ col < work.cols, minVar ≤ col →
    |elimCoeff plus_mult minus_mult ((work.row plus).coeff col)
      ((work.row minus).coeff col)| ≤ int32Max

/-- The row that is put after the last one. -/
def combineRow (work : Work) (plus_mult minus_mult : Int) (plus minus minVar : Nat)
    (small : Small work plus_mult minus_mult plus minus minVar) : Row where
  coeff col :=
    if col < minVar then
      0
    else if col < work.cols then
      elimCoeff plus_mult minus_mult ((work.row plus).coeff col)
        ((work.row minus).coeff col)
    else
      (work.row work.rows).coeff col
  bound := minus_mult * (work.row plus).bound +
    plus_mult * (work.row minus).bound
  fits := by
    intro col
    split
    · exact fits_zero
    · split
      · rename_i above inside
        exact fits_of_abs (small col inside (by omega))
      · exact (work.row work.rows).fits col

/-- Combine two rows with the given multipliers. -/
def elimWith (plus_mult minus_mult : Int) (plus minus minVar : Nat)
    (work : Work) : Option (Work × Bool) :=
  if small : Small work plus_mult minus_mult plus minus minVar then
    let row := combineRow work plus_mult minus_mult plus minus minVar small
    let after := work.setRow work.rows row
    if ∃ col < work.cols, minVar ≤ col ∧ row.coeff col ≠ 0 then
      some ({ after with rows := work.rows + 1 }, false)
    else if row.bound < 0 then
      some (after, true)
    else
      some (after, false)
  else
    none

/--
`Elim_One`: nothing where it fails, else the work array, and whether the system
is proved inconsistent.
-/
def elimOne (i plus minus minVar : Nat) (work : Work) : Option (Work × Bool) :=
  if work.rows + 1 ≥ maxWorkRows then
    none
  else
    let p := (work.row plus).coeff i
    let m := (work.row minus).coeff i
    let g := gcd (abs32 p) (abs32 m)
    elimWith (p.tdiv g) ((int32 (-m)).tdiv g) plus minus minVar work

/-- The combination that eliminates a variable from two rows. -/
def eliminate (work : Work) (i plus minus : Nat) : Inequality :=
  Inequality.combine (-(work.row minus).coeff i) ((work.row plus).coeff i)
    (work.row plus).toInequality (work.row minus).toInequality

theorem elimCoeff_eq (plus_mult minus_mult plus minus : Int) :
    elimCoeff plus_mult minus_mult plus minus = minus_mult * plus + plus_mult * minus := by
  unfold elimCoeff
  split
  · rename_i ones
    rw [ones.1, ones.2, one_mul, one_mul]
  · rfl

/-- The multipliers of two coefficients that fit. -/
theorem mults_spec {p m : Int} (pFits : Fits32 p) (mFits : Fits32 m)
    (positive : 0 < p) (negative : m < 0) (apart : m ≠ -2 ^ 31) :
    0 < gcd (abs32 p) (abs32 m) ∧
      gcd (abs32 p) (abs32 m) * p.tdiv (gcd (abs32 p) (abs32 m)) = p ∧
      gcd (abs32 p) (abs32 m) * (int32 (-m)).tdiv (gcd (abs32 p) (abs32 m)) = -m := by
  have pHigh := pFits.high
  have mLow := mFits.low
  have absP : abs32 p = p := by
    rw [abs32_eq pFits (by omega), abs_of_pos positive]
  have absM : abs32 m = -m := by
    rw [abs32_eq mFits apart, abs_of_neg negative]
  have negM : int32 (-m) = -m := Fits32.int32_eq ⟨by omega, by omega⟩
  have divisor : gcd p (-m) = (Int.gcd p (-m) : Int) := by
    have largest : int32Max = 2 ^ 31 - 1 := rfl
    apply gcd_eq <;> omega
  rw [absP, absM, negM, divisor]
  refine ⟨?_, Int.mul_tdiv_cancel' (Int.gcd_dvd_left _ _),
    Int.mul_tdiv_cancel' (Int.gcd_dvd_right _ _)⟩
  exact Int.natCast_pos.mpr (Int.gcd_pos_of_ne_zero_left _ positive.ne')

/-- The smallest coefficient has no absolute value, and the sum overflows. -/
theorem mults_overflow {p : Int} (pFits : Fits32 p) (positive : 0 < p) :
    int32Max <
      |(int32 (-(-2 ^ 31))).tdiv (gcd (abs32 p) (abs32 (-2 ^ 31))) * p +
        p.tdiv (gcd (abs32 p) (abs32 (-2 ^ 31))) * (-2 ^ 31)| := by
  have pHigh := pFits.high
  have absP : abs32 p = p := by
    rw [abs32_eq pFits (by omega), abs_of_pos positive]
  have absM : abs32 (-2 ^ 31) = -2 ^ 31 := by decide
  have negM : int32 (-(-2 ^ 31)) = -2 ^ 31 := by decide
  rw [absM, negM, absP]
  have divisor : gcd p (-2 ^ 31) = gcdLoop (2 ^ 31 - 1) p (-2 ^ 31) := by
    unfold gcd
    dsimp only
    have turns : (-2 ^ 31 : Int).natAbs = 2 ^ 31 - 1 + 1 := by decide
    have remainder : p.tmod (-2 ^ 31) = p := by
      rw [Int.tmod_neg, Int.tmod_eq_of_lt positive.le pHigh]
    rw [absP, absM, if_neg positive.ne', if_neg (by decide), if_pos (by omega),
      turns, gcdLoop, remainder, if_neg positive.ne']
  obtain ⟨nonzero, small⟩ := @gcdLoop_le (2 ^ 31 - 1) p (-2 ^ 31) positive.ne'
  rw [← divisor] at nonzero small
  generalize gcd p (-2 ^ 31) = g at nonzero small ⊢
  rw [abs_of_pos positive] at small
  unfold int32Max
  rcases lt_or_gt_of_ne nonzero with below | above
  · obtain ⟨h, rfl⟩ : ∃ h, g = -h := ⟨-g, by omega⟩
    rw [abs_neg, abs_of_pos (by omega)] at small
    rw [Int.tdiv_neg, Int.tdiv_neg, Int.neg_tdiv, neg_neg,
      Int.tdiv_eq_ediv_of_nonneg positive.le,
      Int.tdiv_eq_ediv_of_nonneg (by decide)]
    have first : 0 ≤ (2 ^ 31 : Int) / h := Int.ediv_nonneg (by decide) (by omega)
    have second : 1 ≤ p / h := Int.le_ediv_of_mul_le (by omega) (by omega)
    have product : 0 ≤ (2 ^ 31 : Int) / h * p := mul_nonneg first positive.le
    refine lt_of_lt_of_le ?_ (le_abs_self _)
    omega
  · rw [abs_of_pos above] at small
    rw [Int.neg_tdiv, Int.tdiv_eq_ediv_of_nonneg positive.le,
      Int.tdiv_eq_ediv_of_nonneg (by decide)]
    have first : 0 ≤ (2 ^ 31 : Int) / g := Int.ediv_nonneg (by decide) above.le
    have second : 1 ≤ p / g := Int.le_ediv_of_mul_le above (by omega)
    have product : 0 ≤ (2 ^ 31 : Int) / g * p := mul_nonneg first positive.le
    refine lt_of_lt_of_le ?_ (neg_le_abs _)
    rw [neg_mul]
    omega

section Combination

variable {R : Type*} [CommRing R] [LinearOrder R] [IsStrictOrderedRing R]
  {work after : Work} {i plus minus minVar : Nat} {point : Nat → R}

/-- What a combination leaves of the work array. -/
structure Combined (R : Type*) [CommRing R] [LinearOrder R] (work : Work)
    (i plus minus minVar : Nat) (after : Work) : Prop where
  cols : after.cols = work.cols
  rows : work.rows ≤ after.rows
  same : ∀ index < work.rows, after.row index = work.row index
  zero : ∀ index < after.rows, work.rows ≤ index →
    (after.row index).coeff i = 0 ∧ (after.row index).ZeroBelow minVar
  holds : ∀ point : Nat → R,
    (∀ index < after.rows, work.rows ≤ index →
      (after.row index).Holds work.cols point) ↔ (eliminate work i plus minus).Holds work.cols point

/-- The combination with multipliers that are scaled down. -/
theorem elimWith_spec {plus_mult minus_mult g : Int} {inconsistent : Bool} (inside : i < work.cols)
    (plusZero : (work.row plus).ZeroBelow minVar)
    (minusZero : (work.row minus).ZeroBelow minVar) (gPositive : 0 < g)
    (plusExact : g * plus_mult = (work.row plus).coeff i)
    (minusExact : g * minus_mult = -(work.row minus).coeff i)
    (eliminated : elimWith plus_mult minus_mult plus minus minVar work =
      some (after, inconsistent)) :
    if inconsistent then
      ∀ point : Nat → R, ¬(eliminate work i plus minus).Holds work.cols point
    else
      Combined R work i plus minus minVar after := by
  unfold elimWith at eliminated
  dsimp only at eliminated
  split at eliminated
  swap
  · cases eliminated
  rename_i small
  have scaled : ∀ left right : Int,
      -(work.row minus).coeff i * left + (work.row plus).coeff i * right =
        g * (minus_mult * left + plus_mult * right) := by
    intro left right
    rw [← minusExact, ← plusExact]
    ring
  have coeffs : ∀ col < work.cols,
      (combineRow work plus_mult minus_mult plus minus minVar small).coeff col =
        minus_mult * (work.row plus).coeff col + plus_mult * (work.row minus).coeff col := by
    intro col isInside
    unfold combineRow
    dsimp only
    split
    · rename_i isBelow
      rw [plusZero col isBelow, minusZero col isBelow, mul_zero, mul_zero, add_zero]
    · exact elimCoeff_eq _ _ _ _
  have below : (combineRow work plus_mult minus_mult plus minus minVar
      small).ZeroBelow minVar := fun col isBelow => if_pos isBelow
  have zeroColumn : (combineRow work plus_mult minus_mult plus minus minVar small).coeff i = 0 := by
    have product := scaled ((work.row plus).coeff i) ((work.row minus).coeff i)
    have vanishes : g * (minus_mult * (work.row plus).coeff i +
        plus_mult * (work.row minus).coeff i) = 0 := by
      rw [← product]
      ring
    rw [coeffs i inside]
    exact (mul_eq_zero.mp vanishes).resolve_left gPositive.ne'
  have holds : ∀ point : Nat → R,
      (eliminate work i plus minus).Holds work.cols point ↔
        (combineRow work plus_mult minus_mult plus minus minVar small).Holds
          work.cols point := by
    intro point
    refine Inequality.holds_scaled gPositive (fun col isInside => ?_) (scaled _ _)
    rw [coeffs col isInside]
    exact scaled _ _
  generalize combineRow work plus_mult minus_mult plus minus minVar small = row at *
  have noVars : (¬∃ col < work.cols, minVar ≤ col ∧ row.coeff col ≠ 0) →
      ∀ point : Nat → R, row.Holds work.cols point ↔ 0 ≤ row.bound := by
    intro absent point
    refine Inequality.holds_of_zero fun col isInside => ?_
    by_contra nonzero
    refine absent ⟨col, isInside, ?_, nonzero⟩
    by_contra isBelow
    exact nonzero (below col (not_le.mp isBelow))
  have others : ∀ index < work.rows, (work.setRow work.rows row).row index = work.row index :=
    fun index inside => Function.update_of_ne inside.ne _ _
  have placed : (work.setRow work.rows row).row work.rows = row := Function.update_self _ _ _
  split_ifs at eliminated with hasVars negative
  · cases eliminated
    refine ⟨rfl, Nat.le_succ _, others, fun index above below' => ?_,
      fun point => ?_⟩
    · have here : index = work.rows := by
        change index < work.rows + 1 at above
        omega
      rw [here]
      change ((work.setRow work.rows row).row work.rows).coeff i = 0 ∧
        ((work.setRow work.rows row).row work.rows).ZeroBelow minVar
      rw [placed]
      exact ⟨zeroColumn, below⟩
    · rw [holds]
      constructor
      · intro all
        have own := all work.rows (Nat.lt_succ_self _) (le_refl _)
        change ((work.setRow work.rows row).row work.rows).Holds work.cols point at own
        rw [placed] at own
        exact own
      · intro own index above isNew
        have here : index = work.rows := by
          change index < work.rows + 1 at above
          omega
        rw [here]
        change ((work.setRow work.rows row).row work.rows).Holds work.cols point
        rw [placed]
        exact own
  · cases eliminated
    intro point
    rw [holds, noVars hasVars]
    exact not_le.mpr negative
  · cases eliminated
    refine ⟨rfl, le_refl _, others,
      fun index above isNew => absurd above (not_lt.mpr isNew),
      fun point => ?_⟩
    rw [holds, noVars hasVars]
    exact ⟨fun _ => not_lt.mp negative,
      fun _ index above isNew => absurd above (not_lt.mpr isNew)⟩

/-- `Elim_One` adds the combination, or proves that it never holds. -/
theorem elimOne_spec {inconsistent : Bool} (low : minVar ≤ i)
    (inside : i < work.cols) (plusZero : (work.row plus).ZeroBelow minVar)
    (minusZero : (work.row minus).ZeroBelow minVar) (positive : 0 < (work.row plus).coeff i)
    (negative : (work.row minus).coeff i < 0)
    (eliminated : elimOne i plus minus minVar work = some (after, inconsistent)) :
    if inconsistent then
      ∀ point : Nat → R, ¬(eliminate work i plus minus).Holds work.cols point
    else
      Combined R work i plus minus minVar after := by
  have pFits := (work.row plus).fits i
  have mFits := (work.row minus).fits i
  unfold elimOne at eliminated
  dsimp only at eliminated
  split at eliminated
  · cases eliminated
  have apart : (work.row minus).coeff i ≠ -2 ^ 31 := by
    intro smallest
    have overflow := mults_overflow pFits positive
    unfold elimWith at eliminated
    split at eliminated
    · rename_i small
      have fits := small i inside low
      rw [elimCoeff_eq, smallest] at fits
      omega
    · cases eliminated
  obtain ⟨gPositive, plusExact, minusExact⟩ := mults_spec pFits mFits positive negative apart
  exact elimWith_spec inside plusZero minusZero gPositive plusExact minusExact eliminated

end Combination

/-! ## One row with a positive coefficient -/

/-- Combine a row with the rows that have a negative coefficient. -/
def minusLoop (i plus minVar : Nat) :
    Nat → Nat → Work → Option (Work × Bool)
  | 0, _, work => some (work, false)
  | count + 1, minus, work =>
      if (work.row minus).coeff i < 0 then
        match elimOne i plus minus minVar work with
        | none => none
        | some (work, true) => some (work, true)
        | some (work, false) => minusLoop i plus minVar count (minus + 1) work
      else
        minusLoop i plus minVar count (minus + 1) work

/-- Erase a row by copying the last row over it. -/
def eraseRow (plus minVar : Nat) (work : Work) : Work :=
  let last := work.rows - 1
  let moved :=
    if plus ≠ last then
      work.setRow plus
        (Row.copy minVar work.cols (work.row plus) (work.row last))
    else
      work
  { moved with rows := last }

section Plus

variable {R : Type*} [CommRing R] [LinearOrder R] [IsStrictOrderedRing R]
  {work after : Work} {i plus minVar : Nat} {point : Nat → R}

/-- What the combinations of a row leave of the work array. -/
structure Extended (R : Type*) [CommRing R] [LinearOrder R] (work : Work)
    (i plus minVar minus count : Nat) (after : Work) : Prop where
  cols : after.cols = work.cols
  rows : work.rows ≤ after.rows
  same : ∀ index < work.rows, after.row index = work.row index
  zero : ∀ index < after.rows, work.rows ≤ index →
    (after.row index).coeff i = 0 ∧ (after.row index).ZeroBelow minVar
  holds : ∀ point : Nat → R,
    (∀ index < after.rows, work.rows ≤ index →
      (after.row index).Holds work.cols point) ↔
        ∀ index, minus ≤ index → index < minus + count →
          (work.row index).coeff i < 0 → (eliminate work i plus index).Holds work.cols point

omit [IsStrictOrderedRing R] in
/-- One combination, then those with the rows after it. -/
theorem extended_cons {middle : Work} {minus count : Nat}
    (combined : Combined R work i plus minus minVar middle)
    (negative : (work.row minus).coeff i < 0) (minusInside : minus + (count + 1) ≤ work.rows)
    (eliminateSame : ∀ index < work.rows,
      eliminate middle i plus index = eliminate work i plus index)
    (rest : Extended R middle i plus minVar (minus + 1) count after) :
    Extended R work i plus minVar minus (count + 1) after := by
  have grown := combined.rows
  have grownAgain := rest.rows
  refine ⟨rest.cols.trans combined.cols, by omega, fun index below => ?_,
    fun index above isNew => ?_, fun point => ?_⟩
  · rw [rest.same index (by omega), combined.same index below]
  · by_cases atOnce : index < middle.rows
    · rw [rest.same index atOnce]
      exact combined.zero index atOnce isNew
    · exact rest.zero index above (not_lt.mp atOnce)
  · have first := combined.holds point
    have later := rest.holds point
    rw [combined.cols] at later
    constructor
    · intro all index high low isNegative
      by_cases here : index = minus
      · rw [here]
        refine first.mp fun new above isNew => ?_
        have own := all new (by omega) isNew
        rw [rest.same new above] at own
        exact own
      · have below : index < work.rows := by omega
        rw [← eliminateSame index below]
        refine later.mp (fun new above isNew => all new above (by omega)) index
          (by omega) (by omega) ?_
        rw [combined.same index below]
        exact isNegative
    · intro all index above isNew
      by_cases atOnce : index < middle.rows
      · rw [rest.same index atOnce]
        exact first.mpr (all minus (le_refl _) (by omega) negative) index atOnce isNew
      · refine later.mpr (fun other high low isNegative => ?_) index above (not_lt.mp atOnce)
        have below : other < work.rows := by omega
        rw [combined.same other below] at isNegative
        rw [eliminateSame other below]
        exact all other (by omega) (by omega) isNegative

/-- The combinations with all negative rows, or with one that never holds. -/
theorem minusLoop_spec {inconsistent : Bool} {minus count : Nat}
    (zeroBelow : work.ZeroBelow minVar) (low : minVar ≤ i)
    (inside : i < work.cols) (plusInside : plus < work.rows)
    (positive : 0 < (work.row plus).coeff i) (minusInside : minus + count ≤ work.rows)
    (eliminated : minusLoop i plus minVar count minus work = some (after, inconsistent)) :
    if inconsistent then
      ∃ index < work.rows, (work.row index).coeff i < 0 ∧
        ∀ point : Nat → R, ¬(eliminate work i plus index).Holds work.cols point
    else
      Extended R work i plus minVar minus count after := by
  induction count generalizing work minus with
  | zero =>
      cases eliminated
      exact ⟨rfl, le_refl _, fun _ _ => rfl,
        fun index above isNew => absurd above (not_lt.mpr isNew), fun point =>
          ⟨fun _ index high low => by omega,
            fun _ index above isNew => absurd above (not_lt.mpr isNew)⟩⟩
  | succ count ih =>
      unfold minusLoop at eliminated
      split at eliminated
      · rename_i negative
        split at eliminated
        · cases eliminated
        · rename_i middle one
          cases eliminated
          exact ⟨minus, by omega, negative,
            elimOne_spec low inside (zeroBelow plus plusInside)
              (zeroBelow minus (by omega)) positive negative one⟩
        · rename_i middle one
          have combined : Combined R work i plus minus minVar middle :=
            elimOne_spec low inside (zeroBelow plus plusInside)
              (zeroBelow minus (by omega)) positive negative one
          have grown := combined.rows
          have same := combined.same
          have eliminateSame : ∀ index < work.rows,
              eliminate middle i plus index = eliminate work i plus index := by
            intro index below
            unfold eliminate
            rw [same index below, same plus plusInside]
          have middleZero : middle.ZeroBelow minVar := by
            intro index below
            by_cases old : index < work.rows
            · rw [same index old]
              exact zeroBelow index old
            · exact (combined.zero index below (not_lt.mp old)).2
          have rest := ih middleZero
            (combined.cols.symm ▸ inside) (by omega)
            ((same plus plusInside).symm ▸ positive) (by omega) eliminated
          cases inconsistent with
          | true =>
              obtain ⟨index, below, indexNegative, never⟩ := rest
              have old : index < work.rows := by
                by_contra isNew
                have zero := (combined.zero index below (not_lt.mp isNew)).1
                omega
              rw [same index old] at indexNegative
              rw [eliminateSame index old, combined.cols] at never
              exact ⟨index, old, indexNegative, never⟩
          | false =>
              exact extended_cons combined negative (by omega) eliminateSame rest
      · rename_i nonneg
        have rest := ih zeroBelow inside plusInside positive (by omega) eliminated
        cases inconsistent with
        | true => exact rest
        | false =>
            refine ⟨rest.cols, rest.rows, rest.same, rest.zero, fun point => ?_⟩
            rw [rest.holds]
            constructor
            · intro all index high isLow negative
              refine all index ?_ (by omega) negative
              have apart : index ≠ minus := by
                rintro rfl
                exact nonneg negative
              omega
            · exact fun all index high isLow =>
                all index (by omega) (by omega)

/-- The rows that are left once one is erased. -/
structure Erased (work : Work) (plus minVar : Nat) (after : Work) : Prop where
  cols : after.cols = work.cols
  rows : after.rows = work.rows - 1
  same : ∀ index < after.rows, index ≠ plus → after.row index = work.row index
  moved : plus < after.rows → Row.Same work.cols (after.row plus) (work.row (work.rows - 1))
  zeroBelow : after.ZeroBelow minVar

theorem eraseRow_spec (zeroBelow : work.ZeroBelow minVar) (plusInside : plus < work.rows) :
    Erased work plus minVar (eraseRow plus minVar work) := by
  unfold eraseRow
  dsimp only
  split
  · have placed : (work.setRow plus (Row.copy minVar work.cols (work.row plus)
        (work.row (work.rows - 1)))).row plus =
          Row.copy minVar work.cols (work.row plus)
            (work.row (work.rows - 1)) := Function.update_self _ _ _
    have others : ∀ index, index ≠ plus → (work.setRow plus
        (Row.copy minVar work.cols (work.row plus)
          (work.row (work.rows - 1)))).row index = work.row index :=
      fun index apart => Function.update_of_ne apart _ _
    refine ⟨rfl, rfl, fun index _ apart => others index apart, fun _ => ?_,
      fun index inside => ?_⟩
    · dsimp only
      rw [placed]
      exact Row.same_copy (zeroBelow plus plusInside) (zeroBelow (work.rows - 1) (by omega))
    · dsimp only at inside ⊢
      by_cases here : index = plus
      · rw [here, placed]
        exact Row.copy_zeroBelow (zeroBelow plus plusInside)
      · rw [others index here]
        exact zeroBelow index (by omega)
  · refine ⟨rfl, rfl, fun _ _ _ => rfl, fun inside => ?_, fun index inside => ?_⟩
    · dsimp only at inside
      omega
    · dsimp only at inside ⊢
      exact zeroBelow index (by omega)

omit [IsStrictOrderedRing R] in
/-- Erasing a row leaves the others. -/
theorem Erased.holds (erased : Erased work plus minVar after) (plusInside : plus < work.rows) :
    after.Holds point ↔ ∀ index < work.rows, index ≠ plus →
      (work.row index).Holds work.cols point := by
  have fewer := erased.rows
  unfold Holds
  rw [erased.cols]
  constructor
  · intro all index inside apart
    by_cases last : index = work.rows - 1
    · rw [last]
      exact (erased.moved (by omega)).holds.mp (all plus (by omega))
    · rw [← erased.same index (by omega) apart]
      exact all index (by omega)
  · intro all index inside
    by_cases here : index = plus
    · rw [here] at inside ⊢
      exact (erased.moved inside).holds.mpr (all (work.rows - 1) (by omega) (by omega))
    · rw [erased.same index inside here]
      exact all index (by omega) here

end Plus

section Rational

variable {K : Type*} [Field K] [LinearOrder K] [IsStrictOrderedRing K]
  {work middle after : Work} {i plus minVar : Nat} {point : Nat → K}

/-- Some value of the variable extends the point to a solution. -/
def Extends (work : Work) (i : Nat) (point : Nat → K) : Prop :=
  ∃ amount, work.Holds (Function.update point i amount)

/-- The rows apart from one, as a list. -/
def others (work : Work) (plus : Nat) : List Inequality :=
  ((List.range work.rows).filter (· ≠ plus)).map fun index =>
    (work.row index).toInequality

omit [Field K] [LinearOrder K] [IsStrictOrderedRing K] in
theorem forall_mem_others {property : Inequality → Prop} :
    (∀ q ∈ others work plus, property q) ↔
      ∀ index < work.rows, index ≠ plus → property (work.row index).toInequality := by
  unfold others
  rw [List.forall_mem_map]
  constructor
  · exact fun all index inside apart => all index (List.mem_filter.mpr
      ⟨List.mem_range.mpr inside, decide_eq_true apart⟩)
  · intro all index member
    obtain ⟨inRange, apart⟩ := List.mem_filter.mp member
    exact all index (List.mem_range.mp inRange) (of_decide_eq_true apart)

/-- A row with its combinations added may be erased. -/
theorem extends_erase (inside : i < work.cols) (plusInside : plus < work.rows)
    (positive : 0 < (work.row plus).coeff i)
    (extended : Extended K work i plus minVar 0 work.rows middle)
    (erased : Erased middle plus minVar after) :
    after.Extends i point ↔ work.Extends i point := by
  have grown := extended.rows
  have split : ∀ amount, work.Holds (Function.update point i amount) ↔
      ∀ q ∈ (work.row plus).toInequality :: others work plus,
        q.Holds work.cols (Function.update point i amount) := by
    intro amount
    rw [List.forall_mem_cons, forall_mem_others]
    constructor
    · exact fun all => ⟨all plus plusInside, fun index low _ => all index low⟩
    · rintro ⟨own, rest⟩ index low
      by_cases here : index = plus
      · rw [here]
        exact own
      · exact rest index low here
  have combinations : ∀ amount,
      (∀ index < middle.rows, work.rows ≤ index →
        (middle.row index).Holds work.cols (Function.update point i amount)) ↔
        ∀ q ∈ others work plus, q.coeff i < 0 →
          (Inequality.combine (-q.coeff i) ((work.row plus).coeff i)
            (work.row plus).toInequality q).Holds work.cols point := by
    intro amount
    rw [extended.holds, forall_mem_others]
    have independent : ∀ index,
        (eliminate work i plus index).Holds work.cols (Function.update point i amount) ↔
        (eliminate work i plus index).Holds work.cols point := by
      intro index
      unfold Inequality.Holds eliminate
      rw [Inequality.value_eliminated]
    constructor
    · exact fun all index low _ negative => (independent index).mp
        (all index (Nat.zero_le _) (by omega) negative)
    · intro all index _ low negative
      refine (independent index).mpr (all index (by omega) ?_ negative)
      rintro rfl
      omega
  unfold Extends
  simp only [split]
  rw [Inequality.exists_update_erase _ inside positive]
  have parts : ∀ amount, after.Holds (Function.update point i amount) ↔
      (∀ q ∈ others work plus,
        q.Holds work.cols (Function.update point i amount)) ∧
        ∀ index < middle.rows, work.rows ≤ index →
          (middle.row index).Holds work.cols (Function.update point i amount) := by
    intro amount
    rw [erased.holds (by omega), forall_mem_others, extended.cols]
    constructor
    · intro all
      refine ⟨fun index low apart => ?_, fun index low isNew =>
        all index low (by omega)⟩
      rw [← extended.same index low]
      exact all index (by omega) apart
    · rintro ⟨old, new⟩ index low apart
      by_cases isOld : index < work.rows
      · rw [extended.same index isOld]
        exact old index isOld apart
      · exact new index low (not_lt.mp isOld)
  simp only [parts, combinations]
  exact exists_and_right

end Rational

/-! ## All rows -/

/--
The loop over the rows that are not done: `remaining` of them, from `plus` on.
The row that is copied over a row that is done is looked at next if it is not
done itself.
-/
def plusLoop (i minVar : Nat) : Nat → Nat → Work → Option (Work × Bool)
  | 0, _, work => some (work, false)
  | remaining + 1, plus, work =>
      if (work.row plus).coeff i > 0 then
        match minusLoop i plus minVar (plus + (remaining + 1)) 0 work with
        | none => none
        | some (work, true) => some (work, true)
        | some (work, false) =>
            let after := eraseRow plus minVar work
            if after.rows = 0 then
              some (after, false)
            else if plus ≠ work.rows - 1 ∧
                plus + (remaining + 1) ≠ work.rows then
              plusLoop i minVar remaining (plus + 1) after
            else
              plusLoop i minVar remaining plus after
      else
        plusLoop i minVar remaining (plus + 1) work

/--
`Project`: nothing where it fails, else the work array, and whether the system
is proved inconsistent.
-/
def project (i minVar : Nat) (work : Work) : Option (Work × Bool) :=
  match plusLoop i minVar work.rows 0 work with
  | none => none
  | some (work, true) => some (work, true)
  | some (work, false) =>
      if work.rows = 0 then
        some (work, false)
      else
        some (elimSimpleRedundant minVar
          (compact (fun _ row => row.coeff i < 0) minVar work), false)

section Projection

variable {K : Type*} [Field K] [LinearOrder K] [IsStrictOrderedRing K]
  {work middle after : Work} {i plus minVar remaining : Nat}

/-- How far the elimination has come. -/
structure Projecting (K : Type*) [Field K] [LinearOrder K] (original : Work)
    (i minVar remaining plus : Nat) (work : Work) : Prop where
  cols : work.cols = original.cols
  bound : plus + remaining ≤ work.rows
  done : ∀ index < plus, (work.row index).coeff i ≤ 0
  new : ∀ index < work.rows, plus + remaining ≤ index → (work.row index).coeff i = 0
  zeroBelow : work.ZeroBelow minVar
  extends_iff : ∀ point : Nat → K,
    work.Extends i point ↔ original.Extends i point

/-- What is left when all rows are done. -/
structure Projected (K : Type*) [Field K] [LinearOrder K] (original : Work)
    (i minVar : Nat) (work : Work) : Prop where
  cols : work.cols = original.cols
  done : ∀ index < work.rows, (work.row index).coeff i ≤ 0
  zeroBelow : work.ZeroBelow minVar
  extends_iff : ∀ point : Nat → K,
    work.Extends i point ↔ original.Extends i point

omit [IsStrictOrderedRing K] in
/-- The rows after those that are not done have no part in combinations. -/
theorem Extended.all {undone : Nat} (extended : Extended K work i plus minVar 0 undone middle)
    (bound : undone ≤ work.rows)
    (new : ∀ index < work.rows, undone ≤ index → (work.row index).coeff i = 0) :
    Extended K work i plus minVar 0 work.rows middle := by
  refine ⟨extended.cols, extended.rows, extended.same, extended.zero,
    fun point => (extended.holds point).trans ⟨fun all index low high negative =>
      all index low ?_ negative, fun all index low high negative =>
        all index low (by omega) negative⟩⟩
  by_contra outside
  have zero := new index (by omega) (by omega)
  omega

/-- A combination that never holds proves the system inconsistent. -/
theorem not_extends {index : Nat} (plusInside : plus < work.rows)
    (positive : 0 < (work.row plus).coeff i) (inside : index < work.rows)
    (negative : (work.row index).coeff i < 0)
    (never : ∀ point : Nat → K, ¬(eliminate work i plus index).Holds work.cols point)
    (point : Nat → K) : ¬work.Extends i point := by
  rintro ⟨amount, holds⟩
  exact never _ (Inequality.Holds.combine (by omega) positive.le
    (holds plus plusInside) (holds index inside))

/-- A row with a positive coefficient that is done. -/
theorem Projecting.erase {original : Work}
    (projecting : Projecting K original i minVar (remaining + 1) plus work)
    (inside : i < work.cols) (positive : 0 < (work.row plus).coeff i)
    (extended : Extended K work i plus minVar 0 (plus + (remaining + 1)) middle)
    (middleZero : middle.ZeroBelow minVar) :
    Projecting K original i minVar remaining
      (if plus ≠ middle.rows - 1 ∧ plus + (remaining + 1) ≠ middle.rows then
        plus + 1 else plus) (eraseRow plus minVar middle) := by
  have bound := projecting.bound
  have grown := extended.rows
  have plusInside : plus < middle.rows := by omega
  have erased := eraseRow_spec middleZero plusInside
  have fewer := erased.rows
  have middleNew : ∀ index < middle.rows, plus + (remaining + 1) ≤ index →
      (middle.row index).coeff i = 0 := by
    intro index low above
    by_cases old : index < work.rows
    · rw [extended.same index old]
      exact projecting.new index old above
    · exact (extended.zero index low (not_lt.mp old)).1
  have extendsErase : ∀ point : Nat → K,
      (eraseRow plus minVar middle).Extends i point ↔ work.Extends i point :=
    fun point => extends_erase inside (by omega) positive
      (extended.all projecting.bound projecting.new) erased
  have before : ∀ index < plus, ((eraseRow plus minVar middle).row index).coeff i ≤ 0 := by
    intro index low
    rw [erased.same index (by omega) (by omega), extended.same index (by omega)]
    exact projecting.done index low
  have cols := erased.cols.trans (extended.cols.trans projecting.cols)
  split
  · rename_i moved
    refine ⟨cols, by omega, fun index low => ?_, fun index low above => ?_,
      erased.zeroBelow, fun point =>
        (extendsErase point).trans (projecting.extends_iff point)⟩
    · by_cases here : index = plus
      · rw [here, (erased.moved (by omega)).coeff i (extended.cols.symm ▸ inside)]
        exact (middleNew _ (by omega) (by omega)).le
      · exact before index (by omega)
    · rw [erased.same index low (by omega)]
      exact middleNew index (by omega) (by omega)
  · refine ⟨cols, by omega, before, fun index low above => ?_, erased.zeroBelow, fun point =>
        (extendsErase point).trans (projecting.extends_iff point)⟩
    omega

/-- The loop eliminates the variable, up to negative rows. -/
theorem plusLoop_spec {original : Work} {inconsistent : Bool}
    (projecting : Projecting K original i minVar remaining plus work)
    (low : minVar ≤ i) (inside : i < original.cols)
    (eliminated : plusLoop i minVar remaining plus work = some (after, inconsistent)) :
    if inconsistent then ∀ point : Nat → K, ¬original.Extends i point
    else Projected K original i minVar after := by
  induction remaining generalizing work plus with
  | zero =>
      cases eliminated
      refine ⟨projecting.cols, fun index below => ?_, projecting.zeroBelow, projecting.extends_iff⟩
      by_cases isDone : index < plus
      · exact projecting.done index isDone
      · exact (projecting.new index below (by omega)).le
  | succ remaining ih =>
      have bound := projecting.bound
      have workInside : i < work.cols := projecting.cols.symm ▸ inside
      unfold plusLoop at eliminated
      split at eliminated
      · rename_i positive
        split at eliminated
        · cases eliminated
        · rename_i middle loop
          cases eliminated
          have combined : ∃ index < work.rows, (work.row index).coeff i < 0 ∧
              ∀ point : Nat → K, ¬(eliminate work i plus index).Holds work.cols point :=
            minusLoop_spec projecting.zeroBelow low workInside (by omega) positive (by omega) loop
          obtain ⟨index, indexInside, negative, never⟩ := combined
          intro point
          rw [← projecting.extends_iff]
          exact not_extends (by omega) positive indexInside negative never point
        · rename_i middle loop
          have extended : Extended K work i plus minVar 0
              (plus + (remaining + 1)) middle := minusLoop_spec
            projecting.zeroBelow low workInside (by omega) positive (by omega)
            loop
          have middleZero : middle.ZeroBelow minVar := by
            intro index below
            by_cases old : index < work.rows
            · rw [extended.same index old]
              exact projecting.zeroBelow index old
            · exact (extended.zero index below (not_lt.mp old)).2
          have next := projecting.erase workInside positive extended middleZero
          dsimp only at eliminated
          split_ifs at eliminated with empty moved
          · cases eliminated
            refine ⟨next.cols, fun index below => ?_, next.zeroBelow, next.extends_iff⟩
            omega
          · rw [if_pos moved] at next
            exact ih next eliminated
          · rw [if_neg moved] at next
            exact ih next eliminated
      · rename_i notPositive
        refine ih ⟨projecting.cols, by omega,
          fun index below => ?_, fun index below above =>
            projecting.new index below (by omega), projecting.zeroBelow,
          projecting.extends_iff⟩ eliminated
        by_cases here : index = plus
        · rw [here]
          exact not_lt.mp notPositive
        · exact projecting.done index (by omega)

/-- Rows without the variable, and lower bounds on it only. -/
theorem extends_of_nonpositive (inside : i < work.cols)
    (done : ∀ index < work.rows, (work.row index).coeff i ≤ 0)
    (zeroBelow : work.ZeroBelow minVar) (point : Nat → K) :
    work.Extends i point ↔ (compact (fun _ row => row.coeff i < 0) minVar work).Holds point := by
  have system : ∀ property : Inequality → Prop, (∀ q ∈ (List.range work.rows).map (fun index =>
        (work.row index).toInequality), property q) ↔
        ∀ index < work.rows, property (work.row index).toInequality := by
    intro property
    rw [List.forall_mem_map]
    exact forall_congr' fun index => by rw [List.mem_range]
  have exact_iff := @Inequality.exists_update_iff K _ _ _ work.cols i point
    ((List.range work.rows).map fun index => (work.row index).toInequality)
    inside
  simp only [system] at exact_iff
  refine (exact_iff.trans ?_).trans (compact_holds zeroBelow).symm
  constructor
  · rintro ⟨without, -⟩ index below stays
    have notNegative := of_decide_eq_false stays
    exact without index below (le_antisymm (done index below) (not_lt.mp notNegative))
  · intro all
    refine ⟨fun index below zero => all index below
      (decide_eq_false (by omega)), fun index below positive => ?_⟩
    have nonpositive := done index below
    omega

/--
`Project` eliminates a variable exactly: its column is zero in the rows that
are left, which hold at the points that extend to rational solutions; and it
proves systems inconsistent that have no rational solution.
-/
theorem project_spec {inconsistent : Bool} (zeroBelow : work.ZeroBelow minVar)
    (low : minVar ≤ i) (inside : i < work.cols)
    (projected : project i minVar work = some (after, inconsistent)) :
    if inconsistent then ∀ point : Nat → K, ¬work.Holds point
    else after.cols = work.cols ∧ after.ZeroBelow minVar ∧
      (∀ index < after.rows, (after.row index).coeff i = 0) ∧
      ∀ point : Nat → K, after.Holds point ↔ work.Extends i point := by
  have start : Projecting K work i minVar work.rows 0 work :=
    ⟨rfl, by omega, fun _ before => absurd before (Nat.not_lt_zero _),
      fun index below above => by omega, zeroBelow, fun _ => Iff.rfl⟩
  unfold project at projected
  split at projected
  · cases projected
  · rename_i middle loop
    cases projected
    have never := plusLoop_spec start low inside loop
    intro point holds
    refine never point ⟨point i, ?_⟩
    rw [Function.update_eq_self]
    exact holds
  · rename_i middle loop
    have done : Projected K work i minVar middle := plusLoop_spec start low inside loop
    have middleInside : i < middle.cols := done.cols.symm ▸ inside
    split at projected
    · rename_i empty
      cases projected
      refine ⟨done.cols, done.zeroBelow, fun index below => by omega,
        fun point => ?_⟩
      rw [← done.extends_iff]
      exact ⟨fun _ => ⟨0, fun index below => by omega⟩,
        fun _ index below => by omega⟩
    · cases projected
      have compactZero := @compact_zeroBelow
        (fun _ row => decide (row.coeff i < 0)) minVar middle done.zeroBelow
      have compactCols := @compact_cols
        (fun _ row => decide (row.coeff i < 0)) minVar middle done.zeroBelow
      refine ⟨?_, elimSimpleRedundant_zeroBelow compactZero,
        fun index below => ?_, fun point => ?_⟩
      · rw [elimSimpleRedundant_cols compactZero, compactCols, done.cols]
      · obtain ⟨source, sourceInside, same⟩ :=
          elimSimpleRedundant_rows compactZero index below
        obtain ⟨origin, originInside, stays, originSame⟩ :=
          compact_rows done.zeroBelow source sourceInside
        rw [same.coeff i (compactCols.symm ▸ middleInside), originSame.coeff i middleInside]
        have notNegative := of_decide_eq_false stays
        have nonpositive := done.done origin originInside
        omega
      · rw [elimSimpleRedundant_holds compactZero,
          ← extends_of_nonpositive middleInside done.done done.zeroBelow point,
          done.extends_iff]

end Projection

/-! ## Rational solutions -/

/-- The rows `x ≤ y` and `-x ≤ -1`. -/
def twoBounds : Work where
  row index :=
    { coeff := fun col =>
        if col = 0 then (if index = 0 then 1 else -1)
        else if col = 1 ∧ index = 0 then -1
        else 0
      bound := if index = 0 then 0 else -1
      fits := by
        intro col
        split
        · split <;> exact ⟨by decide, by decide⟩
        · split <;> exact ⟨by decide, by decide⟩ }
  rows := 2
  cols := 2

end Work

end OpenUH.Lno.SystemOfEquations
