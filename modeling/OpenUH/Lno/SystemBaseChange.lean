import OpenUH.Lno.SystemTightening

/-!
# The change of base

`Change_Base` takes a variable out of a system: an equation with the smallest
coefficient of the variable is the pivot, and a multiple of it is added to a
multiple of each other row that has the variable.  The rows are rewritten in
place, one after the other, before the next one is looked at.
-/

namespace OpenUH.Lno.SystemOfEquations

open Foundation

/-! ## The code -/

/-- The values of an `INT64`. -/
structure Fits64 (value : Int) : Prop where
  low : -2 ^ 63 ≤ value
  high : value < 2 ^ 63

instance (value : Int) : Decidable (Fits32 value) :=
  decidable_of_iff (-2 ^ 31 ≤ value ∧ value < 2 ^ 31)
    ⟨fun inside => ⟨inside.1, inside.2⟩, fun fits => ⟨fits.low, fits.high⟩⟩

instance (value : Int) : Decidable (Fits64 value) :=
  decidable_of_iff (-2 ^ 63 ≤ value ∧ value < 2 ^ 63)
    ⟨fun inside => ⟨inside.1, inside.2⟩, fun fits => ⟨fits.low, fits.high⟩⟩

/-- The loop for the pivot: the first of the equations from the `i`-th on whose
coefficient is smallest, and smaller than that of the one found before. -/
def pivotRow (column : Nat) :
    Nat → Option (Nat × Row) → List Row → Option (Nat × Row)
  | _, found, [] => found
  | i, found, row :: rows =>
      pivotRow column (i + 1)
        (if row.coeff column ≠ 0 then
          match found with
          | none => some (i, row)
          | some (pivot_row, pivot) =>
              if abs32 (row.coeff column) < abs32 (pivot.coeff column) then
                some (i, row)
              else
                some (pivot_row, pivot)
        else
          found)
        rows

namespace Row

/-- The factor of a row; `sign` is 1 where the multiple of the pivot row is
added, and -1 where it is subtracted. -/
def factor (sign : Int) (column : Nat) (pivot : Row) : Int :=
  -(sign * pivot.coeff column)

/-- `work`, and the new constant. -/
def combined (sign : Int) (column : Nat) (row pivot : Row) : Inequality :=
  .combine (pivot.factor sign column) (sign * row.coeff column)
    row.toInequality pivot.toInequality

/-- The arithmetic of `combined` has a result in the code: a product of two
coefficients has 32 bits, and one with a constant 64. -/
def Defined (sign : Int) (vars column : Nat) (row pivot : Row) : Prop :=
  (∀ k < vars, Fits32 (row.coeff column * pivot.coeff k)) ∧
    Fits64 (pivot.factor sign column * row.bound) ∧
    Fits64 (row.coeff column * pivot.bound) ∧
    Fits64 (row.combined sign column pivot).bound

instance (sign : Int) (vars column : Nat) (row pivot : Row) :
    Decidable (row.Defined sign vars column pivot) :=
  inferInstanceAs (Decidable (_ ∧ _))

/-- Write a coefficient. -/
def setCoeff (k : Nat) (value : Int) (row : Row) : Row where
  coeff := Function.update row.coeff k (int32 value)
  bound := row.bound
  fits := by
    intro column
    by_cases here : column = k
    · rw [here, Function.update_self]
      exact fits_int32 value
    · rw [Function.update_of_ne here]
      exact row.fits column

/-- The loop over `work` from `k` on, and its `g`; the comparison stands inside
of `abs`, so that only large values end it. -/
def storeWork (work : Nat → Int) : Nat → Nat → Int → Row → Row × Option Int
  | 0, _, g, row => (row, some g)
  | count + 1, k, g, row =>
      if work k ≤ int32Max then
        storeWork work count (k + 1) (int32 (gcd64 g |work k|))
          (row.setCoeff k (work k))
      else
        (row, none)

end Row

/-- What ends the change of base. -/
inductive BaseFault where
  | constant
  | coefficient
  deriving DecidableEq

/-- Rewrite one row. -/
def Row.changeBase (sign : Int) (vars column : Nat) (row pivot : Row) :
    Option (Row × Option BaseFault) :=
  if row.Defined sign vars column pivot then
    let work := row.combined sign column pivot
    let changed : Row := { row with bound := work.bound }
    if |work.bound| > int32Max then
      some (changed, some .constant)
    else
      match changed.storeWork work.coeff vars 0 |work.bound| with
      | (stored, none) => some (stored, some .coefficient)
      | (stored, some g) =>
          some (if g > 1 then stored.divideBy vars g (stored.bound.tdiv g)
            else stored, none)
  else
    none

/-- The rows that are rewritten: all with the variable, except for one. -/
def Chosen (skip : Option Nat) (column i : Nat) (row : Row) : Prop :=
  skip ≠ some i ∧ row.coeff column ≠ 0

instance (skip : Option Nat) (column i : Nat) (row : Row) : Decidable (Chosen skip column i row) :=
  inferInstanceAs (Decidable (_ ∧ _))

/-- The loops over the rows, from the `i`-th on. -/
def changeRows (change : Row → Option (Row × Option BaseFault)) (skip : Option Nat) (column : Nat) :
    Nat → List Row → Option (List Row × Option BaseFault)
  | _, [] => some ([], none)
  | i, row :: rows =>
      (if Chosen skip column i row then change row else some (row, none)).bind
        fun
        | (changed, some fault) => some (changed :: rows, some fault)
        | (changed, none) =>
            (changeRows change skip column (i + 1) rows).map fun
            | (others, fault) => (changed :: others, fault)

/-- The pivot row is added to inequalities if its coefficient is negative. -/
def Row.leSign (column : Nat) (pivot : Row) : Int :=
  if pivot.coeff column < 0 then 1 else -1

/-- The loop over the equations. -/
def System.changeEq (system : System) (column pivot_row : Nat) (pivot : Row) :
    Option (List Row × Option BaseFault) :=
  changeRows (fun row => row.changeBase 1 system.vars column pivot)
    (some pivot_row) column 0 system.eq

/-- The loop over the inequalities. -/
def System.changeLe (system : System) (column : Nat) (pivot : Row) :
    Option (List Row × Option BaseFault) :=
  changeRows
    (fun row => row.changeBase (pivot.leSign column) system.vars column pivot)
    none column 0 system.le

/-- `Change_Base`, with `FALSE` as zero. -/
def System.changeBase (dim pos : Nat) (system : System) : Option (Int × System) :=
  let column := dim + pos
  match pivotRow column 0 none system.eq with
  | none => some (-1, system)
  | some (pivot_row, pivot) =>
      (system.changeEq column pivot_row pivot).bind fun
      | (eq, some _) => some (-1, { system with eq := eq })
      | (eq, none) =>
          (system.changeLe column pivot).map fun
          | (le, some .constant) => (0, { system with le := le, eq := eq })
          | (le, some .coefficient) => (-1, { system with le := le, eq := eq })
          | (le, none) => (pivot_row, { system with le := le, eq := eq })

/-! ## The pivot -/

theorem pivotRow_cases {column i : Nat} {found : Option (Nat × Row)} {rows : List Row} :
    pivotRow column i found rows = found ∧
        (found = none → ∀ row ∈ rows, row.coeff column = 0) ∨
      ∃ j row, rows[j]? = some row ∧ row.coeff column ≠ 0 ∧
        pivotRow column i found rows = some (i + j, row) := by
  induction rows generalizing i found with
  | nil => exact .inl ⟨rfl, nofun⟩
  | cons row rows ih =>
      unfold pivotRow
      generalize isNext : (if row.coeff column ≠ 0 then _ else found) = next
      have same : next = found ∧ (found = none → row.coeff column = 0) ∨
          next = some (i, row) ∧ row.coeff column ≠ 0 := by
        rw [← isNext]
        split
        · rename_i nonzero
          cases found with
          | none => exact .inr ⟨rfl, nonzero⟩
          | some pair =>
              dsimp only
              split
              · exact .inr ⟨rfl, nonzero⟩
              · exact .inl ⟨rfl, fun absent => absurd absent (by simp)⟩
        · rename_i zero
          exact .inl ⟨rfl, fun _ => not_not.mp zero⟩
      rcases @ih (i + 1) next with
        ⟨kept, zeros⟩ | ⟨j, other, isOther, nonzero, result⟩
      · rcases same with ⟨rfl, zero⟩ | ⟨rfl, nonzero⟩
        · refine .inl ⟨kept, fun absent => ?_⟩
          rw [List.forall_mem_cons]
          exact ⟨zero absent, zeros absent⟩
        · exact .inr ⟨0, row, rfl, nonzero, kept⟩
      · refine .inr ⟨j + 1, other, isOther, nonzero, ?_⟩
        rw [result, Nat.add_right_comm, Nat.add_assoc]

theorem pivotRow_some {column p : Nat} {pivot : Row} {rows : List Row}
    (found : pivotRow column 0 none rows = some (p, pivot)) :
    rows[p]? = some pivot ∧ pivot.coeff column ≠ 0 := by
  rcases @pivotRow_cases column 0 none rows with
    ⟨absent, -⟩ | ⟨j, row, isRow, nonzero, result⟩
  · rw [absent] at found
    cases found
  · rw [found] at result
    cases result
    rw [Nat.zero_add]
    exact ⟨isRow, nonzero⟩

/-! ## One row -/

section Rows

variable {sign : Int} {vars column : Nat} {pivot row changed : Row}
  {fault : Option BaseFault}

/-- The variable is gone from the combination. -/
theorem Row.combined_coeff_column : (row.combined sign column pivot).coeff column = 0 := by
  unfold combined factor Inequality.combine
  dsimp only
  ring

theorem Row.setCoeff_coeff (k : Nat) (value : Int) (row : Row) (other : Nat) :
    (row.setCoeff k value).coeff other =
      if other = k then int32 value else row.coeff other :=
  Function.update_apply row.coeff k (int32 value) other

/-- What the loop over `work` has done when it ends at a column. -/
structure StoredTo (work : Nat → Int) (first last : Nat) (row stored : Row) :
    Prop where
  bound : stored.bound = row.bound
  small : ∀ k, first ≤ k → k < last → work k ≤ int32Max
  coeff : ∀ k, stored.coeff k =
    if first ≤ k ∧ k < last then int32 (work k) else row.coeff k

theorem Row.storeWork_spec (work : Nat → Int) (count k : Nat) (g : Int) (row : Row) :
    (∃ g', (row.storeWork work count k g).2 = some g' ∧
      StoredTo work k (k + count) row (row.storeWork work count k g).1) ∨
    (row.storeWork work count k g).2 = none ∧ ∃ last < k + count, k ≤ last ∧
      int32Max < work last ∧
      StoredTo work k last row (row.storeWork work count k g).1 := by
  induction count generalizing k g row with
  | zero =>
      refine .inl ⟨g, rfl, rfl, fun other above below => by omega, fun other => ?_⟩
      rw [if_neg (by omega)]
      rfl
  | succ count ih =>
      unfold storeWork
      by_cases small : work k ≤ int32Max
      · rw [if_pos small]
        have extend : ∀ {last stored}, k < last →
            StoredTo work (k + 1) last (row.setCoeff k (work k)) stored →
            StoredTo work k last row stored := by
          intro last stored below later
          refine ⟨later.bound, fun other above inside => ?_, fun other => ?_⟩
          · by_cases here : other = k
            · rw [here]
              exact small
            · exact later.small other (by omega) inside
          · rw [later.coeff, setCoeff_coeff]
            by_cases here : other = k
            · rw [if_neg (by omega), if_pos here, if_pos (by omega), here]
            · by_cases inside : k ≤ other ∧ other < last
              · rw [if_pos (by omega), if_pos inside]
              · rw [if_neg (by omega), if_neg here, if_neg inside]
        rcases ih (k + 1) (int32 (gcd64 g |work k|))
            (row.setCoeff k (work k)) with
          ⟨g', all, stored⟩ | ⟨stopped, last, below, above, large, stored⟩
        · rw [Nat.add_right_comm, Nat.add_assoc] at stored
          exact .inl ⟨g', all, extend (by omega) stored⟩
        · exact .inr ⟨stopped, last, by omega, by omega, large, extend (by omega) stored⟩
      · rw [if_neg small]
        refine .inr ⟨rfl, k, by omega, le_refl _, not_le.mp small, rfl,
          fun other above below => by omega, fun other => ?_⟩
        rw [if_neg (by omega)]

/-- In 32 bits the largest common divisor still is a divisor. -/
theorem int32_dvd {value : Int} (nonneg : 0 ≤ value) (small : value ≤ 2 ^ 31) :
    int32 value ∣ value := by
  by_cases largest : value = 2 ^ 31
  · rw [largest]
    decide
  · rw [(Fits32.mk (by omega) (by omega)).int32_eq]

theorem gcdStep {g value : Int} (small : |g| ≤ 2 ^ 31) (valueSmall : |value| ≤ 2 ^ 31) :
    int32 (gcd64 g |value|) ∣ g ∧ int32 (gcd64 g |value|) ∣ value ∧
      |int32 (gcd64 g |value|)| ≤ 2 ^ 31 := by
  have whole : gcd64 g |value| = Int.gcd g |value| := gcd64_eq (by omega) (by rw [abs_abs]; omega)
  have nonneg : (0 : Int) ≤ Int.gcd g |value| := Int.natCast_nonneg _
  have bounded : (Int.gcd g |value| : Int) ≤ 2 ^ 31 := by
    by_cases zero : g = 0
    · rw [zero, Int.gcd_zero_left, Int.natAbs_abs, Int.natCast_natAbs]
      exact valueSmall
    · refine (Int.le_of_dvd (abs_pos.mpr zero) ?_).trans small
      exact (dvd_abs _ _).mpr (Int.gcd_dvd_left _ _)
  have divides := int32_dvd nonneg bounded
  have fits := fits_int32 (Int.gcd g |value| : Int)
  rw [whole]
  exact ⟨divides.trans (Int.gcd_dvd_left _ _),
    divides.trans ((dvd_abs _ _).mp (Int.gcd_dvd_right _ _)),
    abs_le.mpr ⟨fits.low, fits.high.le⟩⟩

/-- The divisor, where `work` has 32 bits. -/
theorem Row.storeWork_divides (work : Nat → Int) (count k : Nat) {g g' : Int}
    {row : Row} (fits : ∀ other < k + count, |work other| ≤ 2 ^ 31) (small : |g| ≤ 2 ^ 31)
    (all : (row.storeWork work count k g).2 = some g') :
    g' ∣ g ∧ ∀ other, k ≤ other → other < k + count → g' ∣ work other := by
  induction count generalizing k g row with
  | zero =>
      cases all
      exact ⟨dvd_refl _, fun other above below => by omega⟩
  | succ count ih =>
      unfold storeWork at all
      split at all
      · obtain ⟨before, own, bounded⟩ :=
          gcdStep small (fits k (by omega))
        obtain ⟨first, later⟩ := ih (k + 1) (fun other below => fits other (by omega)) bounded all
        refine ⟨first.trans before, fun other above below => ?_⟩
        by_cases here : other = k
        · rw [here]
          exact first.trans own
        · exact later other (by omega) (by omega)
      · cases all

/-- How a row is left. -/
inductive Rewritten (sign : Int) (vars column : Nat) (row pivot changed : Row) :
    Option BaseFault → Prop
  | constant (large : int32Max < |(row.combined sign column pivot).bound|)
      (kept : changed.coeff = row.coeff) (bound : changed.bound =
        (row.combined sign column pivot).bound) :
      Rewritten sign vars column row pivot changed (some .constant)
  | coefficient (last : Nat) (inside : last < vars)
      (small : |(row.combined sign column pivot).bound| ≤ int32Max)
      (large : int32Max < (row.combined sign column pivot).coeff last)
      (stored : StoredTo (row.combined sign column pivot).coeff 0 last
        { row with bound := (row.combined sign column pivot).bound } changed) :
      Rewritten sign vars column row pivot changed (some .coefficient)
  | done (small : |(row.combined sign column pivot).bound| ≤ int32Max)
      (notLarge : ∀ k < vars,
        (row.combined sign column pivot).coeff k ≤ int32Max)
      (cleared : column < vars → changed.coeff column = 0)
      (divided : (∀ k < vars, Fits32 ((row.combined sign column pivot).coeff k)) →
        ∃ d > 0, (row.combined sign column pivot).bound = d * changed.bound ∧
          ∀ k < vars, (row.combined sign column pivot).coeff k =
            d * changed.coeff k) :
      Rewritten sign vars column row pivot changed none

/-- A row that is stored is divided by what is left of the divisor. -/
theorem Row.divided_of_stored {work : Inequality} {stored : Row} {g : Int}
    (storedTo : StoredTo work.coeff 0 vars { row with bound := work.bound } stored)
    (divides : g ∣ work.bound ∧ ∀ k < vars, g ∣ work.coeff k)
    (fits : ∀ k < vars, Fits32 (work.coeff k)) :
    ∃ d > 0,
      work.bound = d * (if g > 1 then
        stored.divideBy vars g (stored.bound.tdiv g) else stored).bound ∧
      ∀ k < vars, work.coeff k = d * (if g > 1 then
        stored.divideBy vars g (stored.bound.tdiv g) else stored).coeff k := by
  have coeffs : ∀ k < vars, stored.coeff k = work.coeff k := by
    intro k inside
    rw [storedTo.coeff, if_pos ⟨Nat.zero_le k, inside⟩, (fits k inside).int32_eq]
  have bound : stored.bound = work.bound := storedTo.bound
  split
  · rename_i large
    refine ⟨g, by omega, ?_, fun k inside => ?_⟩
    · change work.bound = g * stored.bound.tdiv g
      rw [bound, Int.mul_tdiv_cancel' divides.1]
    · rw [← coeffs k inside]
      refine Row.coeff_divideBy (by omega) (fun other below => ?_) (by omega) k inside
      rw [coeffs other below]
      exact divides.2 other below
  · refine ⟨1, by decide, ?_, fun k inside => ?_⟩
    · rw [one_mul, bound]
    · rw [one_mul, coeffs k inside]

theorem Row.cleared_of_stored {work : Inequality} {stored : Row} {g : Int}
    (storedTo : StoredTo work.coeff 0 vars { row with bound := work.bound } stored)
    (zero : work.coeff column = 0) (inside : column < vars) :
    (if g > 1 then stored.divideBy vars g (stored.bound.tdiv g)
      else stored).coeff column = 0 := by
  have own : stored.coeff column = 0 := by
    rw [storedTo.coeff, if_pos ⟨Nat.zero_le column, inside⟩, zero]
    rfl
  split
  · change (if column < vars then int32 ((stored.coeff column).tdiv g)
      else stored.coeff column) = 0
    rw [if_pos inside, own, Int.zero_tdiv]
    rfl
  · exact own

theorem Row.changeBase_some
    (result : row.changeBase sign vars column pivot = some (changed, fault)) :
    row.Defined sign vars column pivot ∧ Rewritten sign vars column row pivot changed fault := by
  unfold changeBase at result
  split at result
  · rename_i isDefined
    refine ⟨isDefined, ?_⟩
    dsimp only at result
    split at result
    · rename_i large
      cases result
      exact .constant large rfl rfl
    · rename_i notLarge
      have small := not_lt.mp notLarge
      have spec := Row.storeWork_spec (row.combined sign column pivot).coeff vars 0
        |(row.combined sign column pivot).bound|
        { row with bound := (row.combined sign column pivot).bound }
      have divides := @Row.storeWork_divides (row.combined sign column pivot).coeff
        vars 0 |(row.combined sign column pivot).bound|
      split at result
      · rename_i stored isStored
        cases result
        rw [isStored] at spec
        rcases spec with ⟨g, all, -⟩ | ⟨-, last, below, -, large, storedTo⟩
        · cases all
        · exact .coefficient last (by omega) small large storedTo
      · rename_i stored g isStored
        cases result
        rw [isStored] at spec
        rcases spec with ⟨g', all, storedTo⟩ | ⟨stopped, -⟩
        · rw [Nat.zero_add] at storedTo
          refine .done small (fun k => storedTo.small k (Nat.zero_le k))
            (Row.cleared_of_stored storedTo Row.combined_coeff_column)
            fun fits => Row.divided_of_stored storedTo ?_ fits
          unfold int32Max at small
          obtain ⟨ofBound, ofCoeffs⟩ := divides
            (fun k inside => abs_le.mpr ⟨(fits k (by omega)).low, (fits k (by omega)).high.le⟩)
            (by rw [abs_abs]; omega) (congrArg Prod.snd isStored)
          exact ⟨(dvd_abs _ _).mp ofBound,
            fun k inside => ofCoeffs k (Nat.zero_le k) (by omega)⟩
        · cases stopped
  · cases result

theorem Row.exists_changeBase (isDefined : row.Defined sign vars column pivot) :
    ∃ changed fault, row.changeBase sign vars column pivot = some (changed, fault) := by
  unfold changeBase
  rw [if_pos isDefined]
  dsimp only
  split
  · exact ⟨_, _, rfl⟩
  · split
    · exact ⟨_, _, rfl⟩
    · exact ⟨_, _, rfl⟩

/-! ## The range of one row -/

/-- The products of two coefficients, the new coefficients and the new constant
of a row have 32 bits, and the constant an absolute value. -/
structure Row.InRange (sign : Int) (vars column : Nat) (row pivot : Row) :
    Prop where
  product : ∀ k < vars, Fits32 (row.coeff column * pivot.coeff k)
  coeff : ∀ k < vars, Fits32 ((row.combined sign column pivot).coeff k)
  bound : |(row.combined sign column pivot).bound| ≤ int32Max

/-- The constants and their products have 64 bits. -/
structure Row.Wide (sign : Int) (column : Nat) (row pivot : Row) : Prop where
  bound : Fits64 row.bound
  scaled : Fits64 (pivot.factor sign column * row.bound)
  product : Fits64 (row.coeff column * pivot.bound)

/-- A row that is given up at its constant, which is the same as before. -/
structure Row.StuckConstant (sign : Int) (vars column : Nat) (row pivot : Row) :
    Prop where
  product : ∀ k < vars, Fits32 (row.coeff column * pivot.coeff k)
  bound : (row.combined sign column pivot).bound = row.bound
  large : int32Max < |row.bound|

/-- A row that is given up at a coefficient, up to which it is the same as
before. -/
structure Row.StuckCoefficient (sign : Int) (vars column : Nat)
    (row pivot : Row) : Prop where
  product : ∀ k < vars, Fits32 (row.coeff column * pivot.coeff k)
  bound : (row.combined sign column pivot).bound = row.bound
  small : |row.bound| ≤ int32Max
  large : ∃ last < vars, int32Max < (row.combined sign column pivot).coeff last ∧
    ∀ k < last, int32 ((row.combined sign column pivot).coeff k) = row.coeff k

theorem Row.ext_iff {first second : Row} :
    first = second ↔ first.coeff = second.coeff ∧ first.bound = second.bound := by
  constructor
  · rintro rfl
    exact ⟨rfl, rfl⟩
  · obtain ⟨⟨firstCoeff, firstBound⟩, firstFits⟩ := first
    obtain ⟨⟨secondCoeff, secondBound⟩, secondFits⟩ := second
    rintro ⟨rfl, rfl⟩
    rfl

/-- A row in range is rewritten to the end. -/
theorem Row.InRange.changeBase (range : row.InRange sign vars column pivot)
    (wide : row.Wide sign column pivot) :
    ∃ changed, row.changeBase sign vars column pivot = some (changed, none) := by
  have small := range.bound
  have bounds := abs_le.mp small
  unfold int32Max at bounds
  obtain ⟨changed, fault, result⟩ := Row.exists_changeBase
    ⟨range.product, wide.scaled, wide.product, by omega, by omega⟩
  obtain ⟨-, rewritten⟩ := Row.changeBase_some result
  cases rewritten with
  | constant large => exact absurd small (not_le.mpr large)
  | coefficient last inside _ large =>
      have fits := (range.coeff last inside).high
      unfold int32Max at large
      omega
  | done => exact ⟨changed, result⟩

theorem Row.StuckConstant.changeBase (stuck : row.StuckConstant sign vars column pivot)
    (wide : row.Wide sign column pivot) :
    row.changeBase sign vars column pivot = some (row, some .constant) := by
  have same := stuck.bound
  obtain ⟨changed, fault, result⟩ := Row.exists_changeBase
    ⟨stuck.product, wide.scaled, wide.product, same ▸ wide.bound⟩
  obtain ⟨-, rewritten⟩ := Row.changeBase_some result
  have large := stuck.large
  rw [← same] at large
  cases rewritten with
  | constant _ kept bound =>
      rw [result, Row.ext_iff.mpr ⟨kept, bound.trans same⟩]
  | coefficient _ _ small => exact absurd small (not_le.mpr large)
  | done small => exact absurd small (not_le.mpr large)

theorem Row.StuckCoefficient.changeBase (stuck : row.StuckCoefficient sign vars column pivot)
    (wide : row.Wide sign column pivot) :
    row.changeBase sign vars column pivot = some (row, some .coefficient) := by
  have same := stuck.bound
  obtain ⟨changed, fault, result⟩ := Row.exists_changeBase
    ⟨stuck.product, wide.scaled, wide.product, same ▸ wide.bound⟩
  obtain ⟨-, rewritten⟩ := Row.changeBase_some result
  obtain ⟨last, inside, large, kept⟩ := stuck.large
  cases rewritten with
  | constant large =>
      have small := stuck.small
      rw [← same] at small
      exact absurd small (not_le.mpr large)
  | coefficient other _ _ _ stored =>
      have first : other ≤ last := by
        by_contra later
        exact absurd (stored.small last (Nat.zero_le _) (by omega)) (not_le.mpr large)
      have coeff : changed.coeff = row.coeff := by
        funext k
        rw [stored.coeff]
        split
        · exact kept k (by omega)
        · rfl
      rw [result, Row.ext_iff.mpr ⟨coeff, stored.bound.trans same⟩]
  | done _ notLarge =>
      exact absurd (notLarge last inside) (not_le.mpr large)

/-- A row that is given up as it was. -/
theorem Row.stuck_of_changeBase {reason : BaseFault}
    (result : row.changeBase sign vars column pivot = some (row, some reason)) :
    reason = .constant ∧ row.StuckConstant sign vars column pivot ∨
      reason = .coefficient ∧ row.StuckCoefficient sign vars column pivot := by
  obtain ⟨isDefined, rewritten⟩ := Row.changeBase_some result
  cases rewritten with
  | constant large _ bound =>
      exact .inl ⟨rfl, isDefined.1, bound.symm, by rwa [← bound] at large⟩
  | coefficient last inside small large stored =>
      have same : row.bound = _ := stored.bound
      refine .inr ⟨rfl, isDefined.1, same.symm, by rwa [← same] at small, last,
        inside, large, fun k below => ?_⟩
      rw [stored.coeff k, if_pos ⟨Nat.zero_le k, below⟩]

/-! ## The points of one row -/

theorem Row.factor_ne_zero (nonzero : pivot.coeff column ≠ 0) : pivot.factor 1 column ≠ 0 := by
  unfold factor
  omega

/-- The multiple of an inequality is positive. -/
theorem Row.leFactor_pos (nonzero : pivot.coeff column ≠ 0) :
    0 < pivot.factor (pivot.leSign column) column := by
  unfold factor leSign
  split <;> omega

section Points

variable {R : Type*} [CommRing R] [LinearOrder R] [IsStrictOrderedRing R]
  {point : Nat → R}

section

variable (rewritten : Rewritten sign vars column row pivot changed none)
  (fits : ∀ k < vars, Fits32 ((row.combined sign column pivot).coeff k))

include rewritten fits

/-- On the points of the pivot an equation that is rewritten has the same
points. -/
theorem Rewritten.value_eq (nonzero : pivot.factor sign column ≠ 0)
    (onPivot : pivot.value vars point = (pivot.bound : R)) :
    changed.value vars point = (changed.bound : R) ↔ row.value vars point = (row.bound : R) := by
  cases rewritten with
  | done _ _ _ divided =>
      obtain ⟨d, positive, bound, coeffs⟩ := divided fits
      rw [← Inequality.value_eq_scaled positive.ne' coeffs bound]
      exact Inequality.combine_value_eq nonzero onPivot

/-- On the points of the pivot an inequality that is rewritten has the same
points. -/
theorem Rewritten.holds_iff (positive : 0 < pivot.factor sign column)
    (onPivot : pivot.value vars point = (pivot.bound : R)) :
    changed.Holds vars point ↔ row.Holds vars point := by
  cases rewritten with
  | done _ _ _ divided =>
      obtain ⟨d, divisor, bound, coeffs⟩ := divided fits
      rw [← Inequality.holds_scaled divisor coeffs bound]
      exact Inequality.combine_holds positive onPivot

end

end Points

end Rows

/-! ## All rows -/

section Lists

variable {change : Row → Option (Row × Option BaseFault)} {skip : Option Nat}
  {column i : Nat} {rows after : List Row} {fault : Option BaseFault}

/-- One row of a list that is rewritten. -/
def Change (change : Row → Option (Row × Option BaseFault)) (skip : Option Nat)
    (column i : Nat) (row changed : Row) : Prop :=
  if Chosen skip column i row then
    change row = some (changed, none)
  else
    changed = row

/-- The rows before one of them are rewritten. -/
structure ChangedTo (change : Row → Option (Row × Option BaseFault))
    (skip : Option Nat) (column i last : Nat) (rows after : List Row) :
    Prop where
  length : after.length = rows.length
  rows : ∀ j < last, ∀ row, rows[j]? = some row → ∃ changed,
    after[j]? = some changed ∧ Change change skip column (i + j) row changed

theorem ChangedTo.cons {last : Nat} {row changed : Row}
    (own : Change change skip column i row changed)
    (others : ChangedTo change skip column (i + 1) last rows after) :
    ChangedTo change skip column i (last + 1) (row :: rows) (changed :: after) := by
  refine ⟨by rw [List.length_cons, List.length_cons, others.length], ?_⟩
  intro j below other isOther
  cases j with
  | zero =>
      cases isOther
      exact ⟨changed, rfl, own⟩
  | succ j =>
      obtain ⟨result, isResult, changes⟩ := others.rows j (by omega) other isOther
      rw [Nat.add_right_comm, Nat.add_assoc] at changes
      exact ⟨result, isResult, changes⟩

/-- All rows are rewritten, or a chosen one is given up. -/
theorem changeRows_some (result : changeRows change skip column i rows = some (after, fault)) :
    fault = none ∧ ChangedTo change skip column i rows.length rows after ∨
      ∃ reason last row changed, fault = some reason ∧
        ChangedTo change skip column i last rows after ∧
        rows[last]? = some row ∧ after[last]? = some changed ∧
        Chosen skip column (i + last) row ∧
        change row = some (changed, some reason) := by
  induction rows generalizing i after with
  | nil =>
      cases result
      exact .inl ⟨rfl, rfl, fun j below => absurd below (Nat.not_lt_zero j)⟩
  | cons row rows ih =>
      unfold changeRows at result
      obtain ⟨⟨changed, own⟩, isOwn, rest⟩ := Option.bind_eq_some_iff.mp result
      cases own with
      | some reason =>
          cases rest
          have chosen : Chosen skip column i row := by
            by_contra away
            rw [if_neg away] at isOwn
            cases isOwn
          rw [if_pos chosen] at isOwn
          exact .inr ⟨reason, 0, row, changed, rfl,
            ⟨rfl, fun j below => absurd below (Nat.not_lt_zero j)⟩, rfl, rfl,
            chosen, isOwn⟩
      | none =>
          obtain ⟨⟨others, othersFault⟩, isOthers, pair⟩ := Option.map_eq_some_iff.mp rest
          cases pair
          have changes : Change change skip column i row changed := by
            unfold Change
            split
            · rename_i chosen
              rw [if_pos chosen] at isOwn
              exact isOwn
            · rename_i away
              rw [if_neg away] at isOwn
              cases isOwn
              rfl
          rcases ih isOthers with
            ⟨whole, later⟩ | ⟨reason, last, other, otherChanged, isFault, later,
              isOther, isChanged, chosen, failed⟩
          · exact .inl ⟨whole, later.cons changes⟩
          · refine .inr ⟨reason, last + 1, other, otherChanged, isFault,
              later.cons changes, isOther, isChanged, ?_, failed⟩
            rw [Nat.add_right_comm, Nat.add_assoc] at chosen
            exact chosen

theorem changeRows_ended (result : changeRows change skip column i rows = some (after, none)) :
    ChangedTo change skip column i rows.length rows after := by
  rcases changeRows_some result with ⟨-, changed⟩ | ⟨_, _, _, _, fault, -⟩
  · exact changed
  · cases fault

/-- Where each chosen row is rewritten, the loop ends. -/
theorem exists_changeRows
    (each : ∀ j row, rows[j]? = some row → Chosen skip column (i + j) row →
      ∃ changed, change row = some (changed, none)) :
    ∃ after, changeRows change skip column i rows = some (after, none) := by
  induction rows generalizing i with
  | nil => exact ⟨[], rfl⟩
  | cons row rows ih =>
      obtain ⟨others, isOthers⟩ := @ih (i + 1)
        fun j other isOther chosen => each (j + 1) other isOther (by
          rwa [Nat.add_right_comm, Nat.add_assoc] at chosen)
      unfold changeRows
      by_cases chosen : Chosen skip column i row
      · obtain ⟨changed, isChanged⟩ := each 0 row rfl chosen
        exact ⟨changed :: others, by
          rw [if_pos chosen, isChanged, Option.bind_some, isOthers]
          rfl⟩
      · exact ⟨row :: others, by
          rw [if_neg chosen, Option.bind_some, isOthers]
          rfl⟩

/-- Where no row is chosen, nothing changes. -/
theorem changeRows_unchosen (away : ∀ j row, rows[j]? = some row →
      ¬Chosen skip column (i + j) row) :
    changeRows change skip column i rows = some (rows, none) := by
  induction rows generalizing i with
  | nil => rfl
  | cons row rows ih =>
      have later := @ih (i + 1) fun j other isOther => by
        rw [Nat.add_right_comm, Nat.add_assoc]
        exact away (j + 1) other isOther
      have own : ¬Chosen skip column i row := away 0 row rfl
      unfold changeRows
      rw [if_neg own, Option.bind_some, later]
      rfl

/-- Where the first chosen row is given up as it was, so are the rows. -/
theorem changeRows_stuck {reason : BaseFault} {last : Nat} {row : Row}
    (isRow : rows[last]? = some row) (chosen : Chosen skip column (i + last) row)
    (before : ∀ j < last, ∀ other, rows[j]? = some other → ¬Chosen skip column (i + j) other)
    (stuck : change row = some (row, some reason)) :
    changeRows change skip column i rows = some (rows, some reason) := by
  induction rows generalizing i last with
  | nil => cases isRow
  | cons first rows ih =>
      unfold changeRows
      cases last with
      | zero =>
          cases isRow
          have own : Chosen skip column i row := chosen
          rw [if_pos own, stuck]
          rfl
      | succ last =>
          have later := @ih (i + 1) last isRow
            (by rwa [Nat.add_right_comm, Nat.add_assoc])
            fun j below other isOther => by
              rw [Nat.add_right_comm, Nat.add_assoc]
              exact before (j + 1) (by omega) other isOther
          have away : ¬Chosen skip column i first := before 0 (by omega) first rfl
          rw [if_neg away, Option.bind_some, later]
          rfl

/-- Each row that is left comes from one that was rewritten. -/
theorem ChangedTo.source {j : Nat} {result : Row}
    (changed : ChangedTo change skip column i rows.length rows after)
    (isResult : after[j]? = some result) :
    ∃ row, rows[j]? = some row ∧ Change change skip column (i + j) row result := by
  obtain ⟨below, -⟩ := List.getElem?_eq_some_iff.mp isResult
  rw [changed.length] at below
  have isRow := List.getElem?_eq_getElem below
  obtain ⟨other, isOther, changes⟩ := changed.rows j below _ isRow
  rw [isResult] at isOther
  cases isOther
  exact ⟨_, isRow, changes⟩

/-- What is said of all rows may be said of the rewritten ones. -/
theorem ChangedTo.forall_iff {first second : Row → Prop}
    (changed : ChangedTo change skip column i rows.length rows after)
    (same : ∀ j row result, rows[j]? = some row →
      Change change skip column (i + j) row result →
      (second result ↔ first row)) :
    (∀ result ∈ after, second result) ↔ ∀ row ∈ rows, first row := by
  constructor
  · intro all row member
    obtain ⟨j, isRow⟩ := List.getElem?_of_mem member
    obtain ⟨below, -⟩ := List.getElem?_eq_some_iff.mp isRow
    obtain ⟨result, isResult, changes⟩ := changed.rows j below row isRow
    exact (same j row result isRow changes).mp (all result (List.mem_of_getElem? isResult))
  · intro all result member
    obtain ⟨j, isResult⟩ := List.getElem?_of_mem member
    obtain ⟨row, isRow, changes⟩ := changed.source isResult
    exact (same j row result isRow changes).mpr (all row (List.mem_of_getElem? isRow))

/-- Where the rows are the same as before, none of them was rewritten. -/
theorem ChangedTo.unchosen {last : Nat} (changed : ChangedTo change skip column i last rows rows)
    (clears : ∀ row result, change row = some (result, none) → result.coeff column = 0) :
    ∀ j < last, ∀ row, rows[j]? = some row → ¬Chosen skip column (i + j) row := by
  intro j below row isRow chosen
  obtain ⟨result, isResult, changes⟩ := changed.rows j below row isRow
  rw [isRow] at isResult
  cases isResult
  unfold Change at changes
  rw [if_pos chosen] at changes
  exact chosen.2 (clears row row changes)

end Lists

/-! ## Systems -/

namespace System

variable {system : System} {column : Nat}

/-- The constants and their products have 64 bits in the rows that are
rewritten. -/
def Wide (system : System) (column : Nat) : Prop :=
  ∀ p pivot, pivotRow column 0 none system.eq = some (p, pivot) →
    (∀ i row, system.eq[i]? = some row → Chosen (some p) column i row →
      row.Wide 1 column pivot) ∧
      ∀ i row, system.le[i]? = some row → Chosen none column i row →
        row.Wide (pivot.leSign column) column pivot

/-- Each row that is rewritten is in range. -/
def InRange (system : System) (column p : Nat) (pivot : Row) : Prop :=
  (∀ i row, system.eq[i]? = some row → Chosen (some p) column i row →
    row.InRange 1 system.vars column pivot) ∧
    ∀ i row, system.le[i]? = some row → Chosen none column i row →
      row.InRange (pivot.leSign column) system.vars column pivot

/-- The first row that is chosen. -/
def FirstChosen (skip : Option Nat) (column : Nat) (rows : List Row) (row : Row) : Prop :=
  ∃ i, rows[i]? = some row ∧ Chosen skip column i row ∧
    ∀ j < i, ∀ other, rows[j]? = some other → ¬Chosen skip column j other

/-- The first row to be rewritten is given up as it was; an inequality at a
coefficient. -/
def Stuck (system : System) (column p : Nat) (pivot : Row) : Prop :=
  (∃ row, FirstChosen (some p) column system.eq row ∧
    (row.StuckConstant 1 system.vars column pivot ∨
      row.StuckCoefficient 1 system.vars column pivot)) ∨
    (∀ i row, system.eq[i]? = some row → ¬Chosen (some p) column i row) ∧
      ∃ row, FirstChosen none column system.le row ∧
        row.StuckCoefficient (pivot.leSign column) system.vars column pivot

/-- There is no pivot, or all rows to be rewritten are in range, or the first of
them is given up before anything is changed. -/
def BaseClear (system : System) (column : Nat) : Prop :=
  ∀ p pivot, pivotRow column 0 none system.eq = some (p, pivot) →
    system.InRange column p pivot ∨ system.Stuck column p pivot

end System

/-- A new coefficient or a new constant leaves 32 bits. -/
def Row.Leaves (sign : Int) (vars column : Nat) (row pivot : Row) : Prop :=
  (∃ k < vars, ¬Fits32 ((row.combined sign column pivot).coeff k)) ∨
    ¬Fits32 (row.combined sign column pivot).bound

theorem Row.InRange.not_leaves {sign : Int} {vars column : Nat}
    {row pivot : Row} (range : row.InRange sign vars column pivot) :
    ¬row.Leaves sign vars column pivot := by
  rintro (⟨k, inside, leaves⟩ | leaves)
  · exact leaves (range.coeff k inside)
  · exact leaves (fits_of_abs range.bound)

namespace System

variable {system : System} {column : Nat}

/-- There is no pivot, or a value leaves 32 bits. -/
def CannotChange (system : System) (column : Nat) : Prop :=
  (∀ row ∈ system.eq, row.coeff column = 0) ∨
    ∃ p pivot, pivotRow column 0 none system.eq = some (p, pivot) ∧
      ((∃ i row, system.eq[i]? = some row ∧ Chosen (some p) column i row ∧
        row.Leaves 1 system.vars column pivot) ∨
        ∃ i row, system.le[i]? = some row ∧ Chosen none column i row ∧
          row.Leaves (pivot.leSign column) system.vars column pivot)

/-- A row index comes with the same rational solutions and a column that is
zero but for this equation; a failure with -1 and the system as it was. -/
structure AllOrNothing (column : Nat) (system : System) (result : Int)
    (after : System) : Prop where
  changed : 0 ≤ result → ∃ r : Nat, result = r ∧ r < system.eq.length ∧
    (∀ point : Nat → ℚ, after.Solves point ↔ system.Solves point) ∧
    (∀ row ∈ after.le, row.coeff column = 0) ∧
    ∀ i row, after.eq[i]? = some row → i ≠ r → row.coeff column = 0
  failed : result < 0 ∨ system.CannotChange column → result = -1 ∧ after = system

/-! ## The change as a whole -/

section Change

variable {p : Nat} {pivot : Row} {eq le : List Row}

/-- The rows of a change that is carried out. -/
structure Carried (system : System) (column p : Nat) (pivot : Row)
    (le eq : List Row) : Prop where
  eq : ChangedTo (fun row => row.changeBase 1 system.vars column pivot)
    (some p) column 0 system.eq.length system.eq eq
  le : ChangedTo
    (fun row => row.changeBase (pivot.leSign column) system.vars column pivot)
    none column 0 system.le.length system.le le

theorem Carried.pivot_kept (carried : system.Carried column p pivot le eq)
    (isPivot : system.eq[p]? = some pivot) : eq[p]? = some pivot := by
  obtain ⟨below, -⟩ := List.getElem?_eq_some_iff.mp isPivot
  obtain ⟨result, isResult, changes⟩ := carried.eq.rows p below pivot isPivot
  unfold SystemOfEquations.Change at changes
  rw [if_neg (by
    rintro ⟨apart, -⟩
    exact apart (by rw [Nat.zero_add]))] at changes
  rw [isResult, changes]

/-- The solutions stay the same. -/
theorem Carried.solves_iff {R : Type*} [CommRing R] [LinearOrder R]
    [IsStrictOrderedRing R] {point : Nat → R} (carried : system.Carried column p pivot le eq)
    (found : pivotRow column 0 none system.eq = some (p, pivot))
    (range : system.InRange column p pivot) :
    ({ system with le := le, eq := eq } : System).Solves point ↔
      system.Solves point := by
  obtain ⟨isPivot, nonzero⟩ := pivotRow_some found
  have eqSame : pivot.value system.vars point = (pivot.bound : R) →
      ((∀ row ∈ eq, row.value system.vars point = (row.bound : R)) ↔
        ∀ row ∈ system.eq, row.value system.vars point = (row.bound : R)) := by
    intro onPivot
    refine carried.eq.forall_iff fun j row result isRow changes => ?_
    unfold SystemOfEquations.Change at changes
    split at changes
    · rename_i chosen
      rw [Nat.zero_add] at chosen
      exact (Row.changeBase_some changes).2.value_eq
        (range.1 j row isRow chosen).coeff (Row.factor_ne_zero nonzero) onPivot
    · rw [changes]
  have leSame : pivot.value system.vars point = (pivot.bound : R) →
      ((∀ row ∈ le, row.Holds system.vars point) ↔
        ∀ row ∈ system.le, row.Holds system.vars point) := by
    intro onPivot
    refine carried.le.forall_iff fun j row result isRow changes => ?_
    unfold SystemOfEquations.Change at changes
    split at changes
    · rename_i chosen
      rw [Nat.zero_add] at chosen
      exact (Row.changeBase_some changes).2.holds_iff
        (range.2 j row isRow chosen).coeff (Row.leFactor_pos nonzero) onPivot
    · rw [changes]
  constructor
  · intro solution
    have onPivot := solution.eq pivot (List.mem_of_getElem? (carried.pivot_kept isPivot))
    exact ⟨(leSame onPivot).mp solution.le, (eqSame onPivot).mp solution.eq⟩
  · intro solution
    have onPivot := solution.eq pivot (List.mem_of_getElem? isPivot)
    exact ⟨(leSame onPivot).mpr solution.le, (eqSame onPivot).mpr solution.eq⟩

/-- A chosen row that is rewritten to the end has lost the variable. -/
theorem changeBase_clears {sign : Int} {vars : Nat} (inside : column < vars) :
    ∀ row result : Row, row.changeBase sign vars column pivot = some (result, none) →
      result.coeff column = 0 := by
  intro row result done
  obtain ⟨-, rewritten⟩ := Row.changeBase_some done
  cases rewritten with
  | done _ _ cleared => exact cleared inside

/-- The variable is left in the pivot row only. -/
theorem Carried.cleared (carried : system.Carried column p pivot le eq)
    (inside : column < system.vars) :
    (∀ row ∈ le, row.coeff column = 0) ∧
      ∀ i row, eq[i]? = some row → i ≠ p → row.coeff column = 0 := by
  constructor
  · intro row member
    obtain ⟨j, isRow⟩ := List.getElem?_of_mem member
    obtain ⟨before, -, changes⟩ := carried.le.source isRow
    unfold SystemOfEquations.Change at changes
    split at changes
    · exact changeBase_clears inside _ row changes
    · rename_i away
      rw [changes]
      by_contra nonzero
      exact away ⟨by simp, nonzero⟩
  · intro i row isRow apart
    obtain ⟨before, -, changes⟩ := carried.eq.source isRow
    unfold SystemOfEquations.Change at changes
    split at changes
    · exact changeBase_clears inside _ row changes
    · rename_i away
      rw [changes]
      by_contra nonzero
      refine away ⟨fun same => apart ?_, nonzero⟩
      rw [Option.some.inj same, Nat.zero_add]

theorem changeBase_of_pivot {dim pos : Nat}
    (found : pivotRow (dim + pos) 0 none system.eq = some (p, pivot)) :
    system.changeBase dim pos =
      (system.changeEq (dim + pos) p pivot).bind fun
      | (eq, some _) => some ((-1 : Int), { system with eq := eq })
      | (eq, none) =>
          (system.changeLe (dim + pos) pivot).map fun
          | (le, some .constant) => ((0 : Int), { system with le := le, eq := eq })
          | (le, some .coefficient) => (-1, { system with le := le, eq := eq })
          | (le, none) => (p, { system with le := le, eq := eq }) := by
  unfold changeBase
  dsimp only
  rw [found]

/-- A system in range can be changed. -/
theorem InRange.not_cannotChange (range : system.InRange column p pivot)
    (found : pivotRow column 0 none system.eq = some (p, pivot)) :
    ¬system.CannotChange column := by
  obtain ⟨isPivot, nonzero⟩ := pivotRow_some found
  rintro (zeros | ⟨other, otherPivot, otherFound,
    ⟨i, row, isRow, chosen, leaves⟩ | ⟨i, row, isRow, chosen, leaves⟩⟩)
  · exact nonzero (zeros pivot (List.mem_of_getElem? isPivot))
  · rw [found] at otherFound
    cases otherFound
    exact (range.1 i row isRow chosen).not_leaves leaves
  · rw [found] at otherFound
    cases otherFound
    exact (range.2 i row isRow chosen).not_leaves leaves

theorem InRange.allOrNothing {dim pos : Nat} (range : system.InRange (dim + pos) p pivot)
    (found : pivotRow (dim + pos) 0 none system.eq = some (p, pivot))
    (inside : dim + pos < system.vars) (wide : system.Wide (dim + pos)) :
    ∃ result after, system.changeBase dim pos = some (result, after) ∧
      system.AllOrNothing (dim + pos) result after := by
  obtain ⟨wideEq, wideLe⟩ := wide p pivot found
  obtain ⟨isPivot, nonzero⟩ := pivotRow_some found
  obtain ⟨below, -⟩ := List.getElem?_eq_some_iff.mp isPivot
  obtain ⟨eq, isEq⟩ : ∃ eq, system.changeEq (dim + pos) p pivot = some (eq, none) :=
    exists_changeRows fun j row isRow chosen => by
      rw [Nat.zero_add] at chosen
      exact (range.1 j row isRow chosen).changeBase (wideEq j row isRow chosen)
  obtain ⟨le, isLe⟩ : ∃ le, system.changeLe (dim + pos) pivot = some (le, none) :=
    exists_changeRows fun j row isRow chosen => by
      rw [Nat.zero_add] at chosen
      exact (range.2 j row isRow chosen).changeBase (wideLe j row isRow chosen)
  have carried : system.Carried (dim + pos) p pivot le eq :=
    ⟨changeRows_ended isEq, changeRows_ended isLe⟩
  refine ⟨p, { system with le := le, eq := eq }, ?_, ?_, ?_⟩
  · rw [changeBase_of_pivot found, isEq, Option.bind_some]
    dsimp only
    rw [isLe]
    rfl
  · intro _
    exact ⟨p, rfl, below, fun point => carried.solves_iff found range, carried.cleared inside⟩
  · rintro (negative | cannot)
    · omega
    · exact absurd cannot (range.not_cannotChange found)

theorem Stuck.allOrNothing {dim pos : Nat} (stuck : system.Stuck (dim + pos) p pivot)
    (found : pivotRow (dim + pos) 0 none system.eq = some (p, pivot))
    (wide : system.Wide (dim + pos)) :
    ∃ result after, system.changeBase dim pos = some (result, after) ∧
      system.AllOrNothing (dim + pos) result after := by
  obtain ⟨wideEq, wideLe⟩ := wide p pivot found
  refine ⟨-1, system, ?_, fun nonneg => absurd nonneg (by decide),
    fun _ => ⟨rfl, rfl⟩⟩
  rw [changeBase_of_pivot found]
  rcases stuck with
    ⟨row, ⟨i, isRow, chosen, first⟩, reason⟩ |
      ⟨kept, row, ⟨i, isRow, chosen, first⟩, reason⟩
  · obtain ⟨fault, failed⟩ : ∃ fault,
        row.changeBase 1 system.vars (dim + pos) pivot = some (row, some fault) := by
      rcases reason with constant | coefficient
      · exact ⟨_, constant.changeBase (wideEq i row isRow chosen)⟩
      · exact ⟨_, coefficient.changeBase (wideEq i row isRow chosen)⟩
    have stopped : system.changeEq (dim + pos) p pivot = some (system.eq, some fault) :=
      changeRows_stuck isRow (by rwa [Nat.zero_add])
        (by simpa only [Nat.zero_add] using first) failed
    rw [stopped]
    rfl
  · have whole : system.changeEq (dim + pos) p pivot = some (system.eq, none) :=
      changeRows_unchosen (by simpa only [Nat.zero_add] using kept)
    have stopped : system.changeLe (dim + pos) pivot = some (system.le, some .coefficient) :=
      changeRows_stuck isRow (by rwa [Nat.zero_add])
        (by simpa only [Nat.zero_add] using first)
        (reason.changeBase (wideLe i row isRow chosen))
    rw [whole, Option.bind_some]
    dsimp only
    rw [stopped]
    rfl

/-- Rows that are given up as they were are so at the first of them. -/
theorem FirstChosen.of_changeRows
    {change : Row → Option (Row × Option BaseFault)} {skip : Option Nat}
    {rows : List Row} {reason : BaseFault}
    (same : changeRows change skip column 0 rows = some (rows, some reason))
    (clears : ∀ row result, change row = some (result, none) → result.coeff column = 0) :
    ∃ row, FirstChosen skip column rows row ∧ change row = some (row, some reason) := by
  rcases changeRows_some same with
    ⟨fault, -⟩ | ⟨_, last, row, changed, isFault, before, isRow, isChanged, chosen, failed⟩
  · cases fault
  · cases isFault
    rw [isRow] at isChanged
    cases isChanged
    rw [Nat.zero_add] at chosen
    have first := before.unchosen clears
    simp only [Nat.zero_add] at first
    exact ⟨row, ⟨last, isRow, chosen, first⟩, failed⟩

/-- The rows of a change that ends and is not to be refused are in range. -/
theorem Carried.inRange (carried : system.Carried column p pivot le eq)
    (found : pivotRow column 0 none system.eq = some (p, pivot))
    (can : ¬system.CannotChange column) : system.InRange column p pivot := by
  have single : ∀ {sign : Int} {row result : Row},
      row.changeBase sign system.vars column pivot = some (result, none) →
      ¬row.Leaves sign system.vars column pivot →
      row.InRange sign system.vars column pivot := by
    intro sign row result ended stays
    obtain ⟨isDefined, rewritten⟩ := Row.changeBase_some ended
    cases rewritten with
    | done small =>
        refine ⟨isDefined.1, fun k inside => ?_, small⟩
        by_contra leaves
        exact stays (.inl ⟨k, inside, leaves⟩)
  constructor
  · intro i row isRow chosen
    obtain ⟨below, -⟩ := List.getElem?_eq_some_iff.mp isRow
    obtain ⟨result, -, changes⟩ := carried.eq.rows i below row isRow
    rw [Nat.zero_add] at changes
    unfold SystemOfEquations.Change at changes
    rw [if_pos chosen] at changes
    exact single changes fun leaves =>
      can (.inr ⟨p, pivot, found, .inl ⟨i, row, isRow, chosen, leaves⟩⟩)
  · intro i row isRow chosen
    obtain ⟨below, -⟩ := List.getElem?_eq_some_iff.mp isRow
    obtain ⟨result, -, changes⟩ := carried.le.rows i below row isRow
    rw [Nat.zero_add] at changes
    unfold SystemOfEquations.Change at changes
    rw [if_pos chosen] at changes
    exact single changes fun leaves =>
      can (.inr ⟨p, pivot, found, .inr ⟨i, row, isRow, chosen, leaves⟩⟩)

/-- `FALSE` is no index of a pivot: the inequality that is given up still has
the variable. -/
theorem AllOrNothing.not_constant {after : System}
    (isLe : system.changeLe column pivot = some (after.le, some .constant))
    (whole : system.AllOrNothing column 0 after) : False := by
  obtain ⟨_, -, -, -, zeros, -⟩ := whole.changed (le_refl 0)
  rcases changeRows_some isLe with
    ⟨fault, -⟩ | ⟨reason, last, row, changed, isReason, -, isRow, isChanged, chosen, failed⟩
  · cases fault
  · cases isReason
    obtain ⟨-, rewritten⟩ := Row.changeBase_some failed
    cases rewritten with
    | constant _ kept =>
        have zero := zeros changed (List.mem_of_getElem? isChanged)
        rw [kept] at zero
        exact chosen.2 zero

theorem AllOrNothing.baseClear {dim pos : Nat} {result : Int} {after : System}
    (whole : system.AllOrNothing (dim + pos) result after)
    (isResult : system.changeBase dim pos = some (result, after))
    (inside : dim + pos < system.vars) : system.BaseClear (dim + pos) := by
  intro p pivot found
  rw [changeBase_of_pivot found] at isResult
  obtain ⟨⟨eq, eqFault⟩, isEq, rest⟩ := Option.bind_eq_some_iff.mp isResult
  cases eqFault with
  | some reason =>
      cases rest
      obtain ⟨-, unchanged⟩ := whole.failed (.inl (by decide))
      have sameEq : eq = system.eq := congrArg System.eq unchanged
      rw [sameEq] at isEq
      obtain ⟨row, first, failed⟩ := FirstChosen.of_changeRows isEq (changeBase_clears inside)
      rcases Row.stuck_of_changeBase failed with ⟨-, stuck⟩ | ⟨-, stuck⟩
      · exact .inr (.inl ⟨row, first, .inl stuck⟩)
      · exact .inr (.inl ⟨row, first, .inr stuck⟩)
  | none =>
      obtain ⟨⟨le, leFault⟩, isLe, pair⟩ := Option.map_eq_some_iff.mp rest
      have eqChanged := changeRows_ended isEq
      match leFault, pair with
      | some .constant, pair =>
          cases pair
          exact (AllOrNothing.not_constant isLe whole).elim
      | some .coefficient, pair =>
          cases pair
          obtain ⟨-, unchanged⟩ := whole.failed (.inl (by decide))
          have sameEq : eq = system.eq := congrArg System.eq unchanged
          have sameLe : le = system.le := congrArg System.le unchanged
          rw [sameLe] at isLe
          rw [sameEq] at eqChanged
          have kept := eqChanged.unchosen (changeBase_clears inside)
          simp only [Nat.zero_add] at kept
          obtain ⟨row, first, failed⟩ := FirstChosen.of_changeRows isLe (changeBase_clears inside)
          rcases Row.stuck_of_changeBase failed with ⟨fault, -⟩ | ⟨-, stuck⟩
          · cases fault
          · refine .inr (.inr ⟨fun i row isRow => ?_, row, first, stuck⟩)
            obtain ⟨below, -⟩ := List.getElem?_eq_some_iff.mp isRow
            exact kept i below row isRow
      | none, pair =>
          cases pair
          have carried : system.Carried (dim + pos) p pivot le eq :=
            ⟨eqChanged, changeRows_ended isLe⟩
          refine .inl (carried.inRange found fun cannot => ?_)
          have negative := (whole.failed (.inr cannot)).1
          omega

end Change

/-- The equations `x + 2 y = 4` and `x + 4 y = 6` with `3 y ≤ 5`. -/
def twoLines : System where
  le := [boundBoth 0 3 5 fits_zero fits_three]
  eq := [boundBoth 1 2 4 fits_one fits_two,
    boundBoth 1 4 6 fits_one fits_four]
  vars := 2

theorem twoLines_inRange (p : Nat) (pivot : Row)
    (found : pivotRow 1 0 none twoLines.eq = some (p, pivot)) :
    (∀ i row, twoLines.eq[i]? = some row → Chosen (some p) 1 i row →
      row.InRange 1 2 1 pivot ∧ row.Wide 1 1 pivot) ∧
      ∀ i row, twoLines.le[i]? = some row → Chosen none 1 i row →
        row.InRange (pivot.leSign 1) 2 1 pivot ∧ row.Wide (pivot.leSign 1) 1 pivot := by
  cases found
  constructor
  · intro i row isRow chosen
    match i, isRow with
    | 0, _ => exact absurd rfl chosen.1
    | 1, isRow =>
        cases isRow
        exact ⟨⟨by decide, by decide, by decide⟩, by decide, by decide, by decide⟩
  · intro i row isRow chosen
    match i, isRow with
    | 0, isRow =>
        cases isRow
        exact ⟨⟨by decide, by decide, by decide⟩, by decide, by decide, by decide⟩

/-- The equation `x + 2 y = 0` with `y ≤ 2 ^ 30`. -/
def wideConstant : System where
  le := [boundBoth 0 1 (2 ^ 30) fits_zero fits_one]
  eq := [boundBoth 1 2 0 fits_one fits_two]
  vars := 2

end System

end OpenUH.Lno.SystemOfEquations
