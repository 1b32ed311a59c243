import OpenUH.Foundation.LinearInequality

/-!
# The rows of systems of equations

The work array of `SYSTEM_OF_EQUATIONS` in `soe.cxx`: rows of 32-bit
coefficients with 64-bit constants, the greatest common divisor, and the
compaction of rows that several routines share.
-/

namespace OpenUH.Lno.SystemOfEquations

open Foundation

/-! ## 32-bit arithmetic -/

/-- `INT32_MAX`. -/
def int32Max : Int := 2 ^ 31 - 1

/-- The values of an `INT32`. -/
structure Fits32 (value : Int) : Prop where
  low : -2 ^ 31 ≤ value
  high : value < 2 ^ 31

/-- What is left of a value in an `INT32`. -/
def int32 (value : Int) : Int := Int.bmod value (2 ^ 32)

theorem fits_int32 (value : Int) : Fits32 (int32 value) := by
  have low := @Int.le_bmod value (2 ^ 32) (by decide)
  have high := @Int.bmod_lt value (2 ^ 32) (by decide)
  unfold int32
  exact ⟨by omega, by omega⟩

theorem Fits32.int32_eq {value : Int} (fits : Fits32 value) : int32 value = value := by
  have low := fits.low
  have high := fits.high
  exact (Int.bmod_eq_iff (by decide)).mpr ⟨by omega, by omega, by simp⟩

theorem fits_zero : Fits32 0 := ⟨by decide, by decide⟩

theorem fits_one : Fits32 1 := ⟨by decide, by decide⟩

theorem fits_negOne : Fits32 (-1) := ⟨by decide, by decide⟩

theorem fits_two : Fits32 2 := ⟨by decide, by decide⟩

theorem fits_three : Fits32 3 := ⟨by decide, by decide⟩

theorem fits_four : Fits32 4 := ⟨by decide, by decide⟩

theorem fits_wide : Fits32 65536 := ⟨by decide, by decide⟩

/-- Two coefficients, and zeroes behind them. -/
theorem fits_both (first second : Int) (fits : Fits32 first) (fits' : Fits32 second) (col : Nat) :
    Fits32 (if col = 0 then first else if col = 1 then second else 0) := by
  split
  · exact fits
  · split
    · exact fits'
    · exact fits_zero

theorem fits_of_abs {value : Int} (small : |value| ≤ int32Max) : Fits32 value := by
  unfold int32Max at small
  have bounds := abs_le.mp small
  exact ⟨by omega, by omega⟩

/-- `abs` of an `INT32`; the smallest value has none. -/
def abs32 (value : Int) : Int := int32 |value|

theorem abs32_eq {value : Int} (fits : Fits32 value) (apart : value ≠ -2 ^ 31) :
    abs32 value = |value| := by
  have low := fits.low
  have high := fits.high
  have small : |value| ≤ int32Max := by
    unfold int32Max
    exact abs_le.mpr ⟨by omega, by omega⟩
  exact (fits_of_abs (by rwa [abs_abs])).int32_eq

/-! ## Greatest common divisors -/

/-- The loop of `Gcd`; each turn makes the first argument smaller. -/
def gcdLoop : Nat → Int → Int → Int
  | 0, i, _ => i
  | fuel + 1, i, j =>
      if j.tmod i = 0 then i else gcdLoop fuel (j.tmod i) i

/-- `Gcd`. -/
def gcd (i j : Int) : Int :=
  let i := abs32 i
  let j := abs32 j
  if i = 0 then
    j
  else if j = 0 then
    i
  else if i > j then
    gcdLoop j.natAbs j i
  else
    gcdLoop i.natAbs i j

/-- The result is no larger than the first argument, and not zero. -/
theorem gcdLoop_le {fuel : Nat} {i j : Int} (nonzero : i ≠ 0) :
    gcdLoop fuel i j ≠ 0 ∧ |gcdLoop fuel i j| ≤ |i| := by
  induction fuel generalizing i j with
  | zero => exact ⟨nonzero, le_refl _⟩
  | succ fuel ih =>
      unfold gcdLoop
      split
      · exact ⟨nonzero, le_refl _⟩
      · rename_i remains
        obtain ⟨result, small⟩ := @ih (j.tmod i) i remains
        refine ⟨result, small.trans ?_⟩
        rw [Int.abs_eq_natAbs, Int.abs_eq_natAbs, Int.natAbs_tmod]
        exact_mod_cast (Nat.mod_lt _ (Int.natAbs_pos.mpr nonzero)).le

theorem gcdLoop_eq {fuel : Nat} {i j : Int} (positive : 0 < i)
    (nonneg : 0 ≤ j) (enough : i.natAbs ≤ fuel) :
    gcdLoop fuel i j = Int.gcd i j := by
  induction fuel generalizing i j with
  | zero => omega
  | succ fuel ih =>
      have remainder : j.tmod i = j % i := Int.tmod_eq_emod_of_nonneg nonneg
      have below := Int.emod_lt_of_pos j positive
      have above := Int.emod_nonneg j positive.ne'
      unfold gcdLoop
      rw [remainder]
      split
      · rename_i divides
        rw [Int.gcd_eq_left positive.le (Int.dvd_of_emod_eq_zero divides)]
      · rename_i remains
        rw [ih (by omega) positive.le (by omega)]
        rw [Int.gcd_emod, Int.gcd_comm]

theorem gcd_eq {i j : Int} (left : 0 ≤ i) (leftSmall : i ≤ int32Max)
    (right : 0 ≤ j) (rightSmall : j ≤ int32Max) :
    gcd i j = Int.gcd i j := by
  unfold int32Max at leftSmall rightSmall
  have keep : ∀ value : Int, 0 ≤ value → value ≤ 2 ^ 31 - 1 → abs32 value = value := by
    intro value nonneg small
    rw [abs32_eq ⟨by omega, by omega⟩ (by omega), abs_of_nonneg nonneg]
  unfold gcd
  dsimp only
  rw [keep i left leftSmall, keep j right rightSmall]
  split
  · rename_i zero
    rw [zero, Int.gcd_zero_left, Int.natAbs_of_nonneg right]
  · split
    · rename_i zero
      rw [zero, Int.gcd_zero_right, Int.natAbs_of_nonneg left]
    · split
      · rw [gcdLoop_eq (by omega) left (le_refl _), Int.gcd_comm]
      · exact gcdLoop_eq (by omega) right (le_refl _)

/-! ## Rows -/

/-- A row of 32-bit coefficients with its constant. -/
structure Row extends Inequality where
  fits : ∀ column, Fits32 (coeff column)

namespace Row

/-- Copy the columns from `minVar` on, and the constant. -/
def copy (minVar cols : Nat) (target source : Row) : Row where
  coeff column :=
    if minVar ≤ column ∧ column < cols then
      source.coeff column
    else
      target.coeff column
  bound := source.bound
  fits := by
    intro column
    split
    · exact source.fits column
    · exact target.fits column

/-- Two rows that agree on the columns in use. -/
structure Same (cols : Nat) (first second : Row) : Prop where
  coeff : ∀ column < cols, first.coeff column = second.coeff column
  bound : first.bound = second.bound

/-- The columns before `minVar` are zero. -/
def ZeroBelow (minVar : Nat) (row : Row) : Prop :=
  ∀ column < minVar, row.coeff column = 0

theorem Same.refl (cols : Nat) (row : Row) : Same cols row row :=
  ⟨fun _ _ => rfl, rfl⟩

theorem same_copy {minVar cols : Nat} {target source : Row} (targetZero : target.ZeroBelow minVar)
    (sourceZero : source.ZeroBelow minVar) :
    Same cols (copy minVar cols target source) source where
  coeff column inside := by
    unfold copy
    dsimp only
    split
    · rfl
    · have below : column < minVar := by omega
      rw [targetZero column below, sourceZero column below]
  bound := rfl

theorem copy_zeroBelow {minVar cols : Nat} {target source : Row}
    (targetZero : target.ZeroBelow minVar) :
    (copy minVar cols target source).ZeroBelow minVar := by
  intro column below
  unfold copy
  dsimp only
  rw [if_neg (by omega)]
  exact targetZero column below

section Points

variable {R : Type*} [CommRing R] [LinearOrder R]
  {cols : Nat} {first second : Row} {point : Nat → R}

theorem Same.holds (same : Same cols first second) :
    first.Holds cols point ↔ second.Holds cols point :=
  Inequality.holds_congr same.coeff same.bound fun _ _ _ => rfl

end Points

end Row

/-! ## The work array -/

/-- `_work`, `_work_const`, `_work_rows` and `_work_cols`. -/
structure Work where
  row : Nat → Row
  rows : Nat
  cols : Nat

namespace Work

/-- Set a row. -/
def setRow (work : Work) (index : Nat) (row : Row) : Work :=
  { work with row := Function.update work.row index row }

/-- A point that satisfies every row. -/
def Holds {R : Type*} [CommRing R] [LinearOrder R] (work : Work) (point : Nat → R) : Prop :=
  ∀ index < work.rows, (work.row index).Holds work.cols point

/-- The columns before `minVar` are zero in every row. -/
def ZeroBelow (work : Work) (minVar : Nat) : Prop :=
  ∀ index < work.rows, (work.row index).ZeroBelow minVar

/-! ### Compaction -/

/-- The rows at the end that go are dropped, down to a row that is kept. -/
def trim (bad : Nat → Row → Bool) (work : Work) (index : Nat) : Nat → Nat
  | 0 => 0
  | rows + 1 =>
      if index < rows ∧ bad rows (work.row rows) then
        trim bad work index rows
      else
        rows + 1

/--
Overwrite the rows that go by rows from the end.  Row `rows - 1` of the result
of `trim` is kept unless it is row `index` itself.
-/
def compactLoop (bad : Nat → Row → Bool) (minVar : Nat) :
    Nat → Nat → Work → Work
  | 0, _, work => work
  | fuel + 1, index, work =>
      if index < work.rows then
        if bad index (work.row index) then
          let rows := trim bad work index work.rows
          let work :=
            if index < rows - 1 then
              work.setRow index (Row.copy minVar work.cols (work.row index)
                (work.row (rows - 1)))
            else
              work
          compactLoop bad minVar fuel (index + 1) { work with rows := rows - 1 }
        else
          compactLoop bad minVar fuel (index + 1) work
      else
        work

/-- The compaction at the end of `Project` and of `Elim_Simple_Redundant`. -/
def compact (bad : Nat → Row → Bool) (minVar : Nat) (work : Work) : Work :=
  compactLoop bad minVar work.rows 0 work

theorem trim_le {bad : Nat → Row → Bool} {work : Work} {index rows : Nat} (inside : index < rows) :
    index < trim bad work index rows ∧ trim bad work index rows ≤ rows ∧
      (∀ other, trim bad work index rows ≤ other → other < rows →
        bad other (work.row other) = true) ∧
      (trim bad work index rows = index + 1 ∨
        bad (trim bad work index rows - 1) (work.row (trim bad work index rows - 1)) = false) := by
  induction rows with
  | zero => omega
  | succ rows ih =>
      unfold trim
      split
      · rename_i drops
        obtain ⟨above, below, dropped, last⟩ := ih drops.1
        refine ⟨above, by omega, fun other high low => ?_, last⟩
        by_cases here : other = rows
        · rw [here]
          exact drops.2
        · exact dropped other high (by omega)
      · rename_i stays
        refine ⟨inside, le_refl _, fun other high low => by omega, ?_⟩
        by_cases here : index = rows
        · exact .inl (by omega)
        · refine .inr (Bool.eq_false_of_not_eq_true fun drops => ?_)
          exact stays ⟨by omega, drops⟩

/-- How far the compaction has come at a row. -/
structure Compacting (bad : Nat → Row → Bool) (minVar : Nat) (work : Work)
    (index : Nat) (current : Work) : Prop where
  cols : current.cols = work.cols
  rows : current.rows ≤ work.rows
  untouched : ∀ other, index ≤ other → current.row other = work.row other
  sound : ∀ other < current.rows, other < index →
    ∃ source < work.rows, bad source (work.row source) = false ∧
      Row.Same work.cols (current.row other) (work.row source)
  complete : ∀ source < work.rows, bad source (work.row source) = false →
    (index ≤ source ∧ source < current.rows) ∨
      ∃ other < current.rows, other < index ∧
        Row.Same work.cols (current.row other) (work.row source)
  zeroBelow : current.ZeroBelow minVar

namespace Compacting

variable {bad : Nat → Row → Bool} {minVar : Nat} {work current : Work}
  {index : Nat} (compacting : Compacting bad minVar work index current)
include compacting

/-- A row that stays. -/
theorem stay (inside : index < current.rows) (stays : bad index (current.row index) = false) :
    Compacting bad minVar work (index + 1) current := by
  have own := compacting.untouched index (le_refl _)
  have below := compacting.rows
  refine ⟨compacting.cols, below, fun other high =>
    compacting.untouched other (by omega), fun other low before => ?_,
    fun source inSource good => ?_, compacting.zeroBelow⟩
  · by_cases here : other = index
    · refine ⟨index, by omega, own ▸ stays, ?_⟩
      rw [here, own]
      exact Row.Same.refl _ _
    · exact compacting.sound other low (by omega)
  · rcases compacting.complete source inSource good with ⟨high, low⟩ |
      ⟨other, low, before, same⟩
    · by_cases here : source = index
      · refine .inr ⟨index, inside, by omega, ?_⟩
        rw [here, own]
        exact Row.Same.refl _ _
      · exact .inl ⟨by omega, low⟩
    · exact .inr ⟨other, low, by omega, same⟩

/-- A row that goes, and the last that stays is put in its place. -/
theorem replace (inside : index < current.rows) (goes : bad index (current.row index) = true) :
    Compacting bad minVar work (index + 1)
      { (if index < trim bad current index current.rows - 1 then
          current.setRow index (Row.copy minVar current.cols
            (current.row index)
            (current.row (trim bad current index current.rows - 1)))
        else current) with
        rows := trim bad current index current.rows - 1 } := by
  have own := compacting.untouched index (le_refl _)
  have below := compacting.rows
  obtain ⟨above, within, dropped, last⟩ := @trim_le bad current index current.rows inside
  generalize trim bad current index current.rows = count at above within dropped last ⊢
  have isBad : ∀ source, index ≤ source → source < current.rows →
      bad source (work.row source) = false → source ≠ index ∧ source < count := by
    intro source high low good
    have same := compacting.untouched source high
    refine ⟨?_, ?_⟩
    · rintro rfl
      rw [← own, goes] at good
      cases good
    · by_contra outside
      have gone := dropped source (by omega) low
      rw [same, good] at gone
      cases gone
  by_cases moves : index < count - 1
  · rw [if_pos moves]
    have moved := compacting.untouched (count - 1) (by omega)
    have targetZero := compacting.zeroBelow index inside
    have sourceZero := compacting.zeroBelow (count - 1) (by omega)
    have copied : Row.Same work.cols (Row.copy minVar current.cols
        (current.row index) (current.row (count - 1))) (work.row (count - 1)) := by
      rw [moved, ← compacting.cols]
      exact Row.same_copy targetZero (moved ▸ sourceZero)
    have kept : ∀ other, other ≠ index →
        (current.setRow index (Row.copy minVar current.cols
          (current.row index) (current.row (count - 1)))).row other = current.row other :=
      fun other apart => Function.update_of_ne apart _ _
    have placed : (current.setRow index (Row.copy minVar current.cols
        (current.row index) (current.row (count - 1)))).row index =
          Row.copy minVar current.cols (current.row index)
            (current.row (count - 1)) := Function.update_self _ _ _
    refine ⟨compacting.cols, ?_, fun other high => ?_,
      fun other low before => ?_, fun source inSource good => ?_,
      fun other low => ?_⟩
    · dsimp only
      omega
    · exact (kept other (by omega)).trans (compacting.untouched other (by omega))
    · dsimp only at low ⊢
      by_cases here : other = index
      · refine ⟨count - 1, by omega, ?_, ?_⟩
        · rw [← moved]
          exact last.resolve_left (by omega)
        · rw [here, placed]
          exact copied
      · rw [kept other here]
        exact compacting.sound other (by omega) (by omega)
    · dsimp only
      rcases compacting.complete source inSource good with ⟨high, low⟩ |
        ⟨other, low, before, same⟩
      · obtain ⟨apart, low⟩ := isBad source high low good
        by_cases here : source = count - 1
        · refine .inr ⟨index, moves, by omega, ?_⟩
          rw [placed, here]
          exact copied
        · exact .inl ⟨by omega, by omega⟩
      · refine .inr ⟨other, by omega, by omega, ?_⟩
        rw [kept other (by omega)]
        exact same
    · dsimp only at low ⊢
      by_cases here : other = index
      · rw [here, placed]
        exact Row.copy_zeroBelow targetZero
      · rw [kept other here]
        exact compacting.zeroBelow other (by omega)
  · rw [if_neg moves]
    refine ⟨compacting.cols, ?_, fun other high =>
      compacting.untouched other (by omega), fun other low before => ?_,
      fun source inSource good => ?_, fun other low => ?_⟩
    · dsimp only
      omega
    · dsimp only at low
      exact compacting.sound other (by omega) (by omega)
    · dsimp only
      rcases compacting.complete source inSource good with ⟨high, low⟩ |
        ⟨other, low, before, same⟩
      · obtain ⟨apart, low⟩ := isBad source high low good
        omega
      · exact .inr ⟨other, by omega, by omega, same⟩
    · dsimp only at low
      exact compacting.zeroBelow other (by omega)

end Compacting

theorem compactLoop_spec {bad : Nat → Row → Bool} {minVar : Nat}
    {work current : Work} {index fuel : Nat} (compacting : Compacting bad minVar work index current)
    (enough : current.rows ≤ index + fuel) :
    ∃ last, (compactLoop bad minVar fuel index current).rows ≤ last ∧
      Compacting bad minVar work last (compactLoop bad minVar fuel index current) := by
  induction fuel generalizing index current with
  | zero => exact ⟨index, enough, compacting⟩
  | succ fuel ih =>
      unfold compactLoop
      split
      · rename_i inside
        split
        · rename_i goes
          have within := (@trim_le bad current index current.rows inside).2.1
          refine ih (compacting.replace inside goes) ?_
          dsimp only
          omega
        · rename_i stays
          exact ih (compacting.stay inside (Bool.eq_false_of_not_eq_true stays)) (by omega)
      · exact ⟨index, by omega, compacting⟩

section Compact

variable {bad : Nat → Row → Bool} {minVar : Nat} {work : Work}
  (zeroBelow : work.ZeroBelow minVar)
include zeroBelow

/-- The compaction leaves the rows that are not bad, and no others. -/
theorem compact_spec : ∃ last, (compact bad minVar work).rows ≤ last ∧
    Compacting bad minVar work last (compact bad minVar work) := by
  refine compactLoop_spec ⟨rfl, le_refl _, fun _ _ => rfl,
    fun _ _ before => absurd before (Nat.not_lt_zero _),
    fun _ inSource _ => .inl ⟨Nat.zero_le _, inSource⟩, zeroBelow⟩ (by omega)

theorem compact_rows (index : Nat) (inside : index < (compact bad minVar work).rows) :
    ∃ source < work.rows, bad source (work.row source) = false ∧
      Row.Same work.cols ((compact bad minVar work).row index) (work.row source) := by
  obtain ⟨last, all, compacting⟩ := @compact_spec bad minVar work zeroBelow
  exact compacting.sound index inside (by omega)

theorem exists_compact_row (source : Nat) (inside : source < work.rows)
    (good : bad source (work.row source) = false) :
    ∃ index < (compact bad minVar work).rows,
      Row.Same work.cols ((compact bad minVar work).row index) (work.row source) := by
  obtain ⟨last, all, compacting⟩ := @compact_spec bad minVar work zeroBelow
  rcases compacting.complete source inside good with ⟨high, low⟩ |
    ⟨index, low, -, same⟩
  · omega
  · exact ⟨index, low, same⟩

theorem compact_cols : (compact bad minVar work).cols = work.cols := by
  obtain ⟨last, all, compacting⟩ := @compact_spec bad minVar work zeroBelow
  exact compacting.cols

theorem compact_zeroBelow : (compact bad minVar work).ZeroBelow minVar := by
  obtain ⟨last, all, compacting⟩ := @compact_spec bad minVar work zeroBelow
  exact compacting.zeroBelow

theorem compact_holds {R : Type*} [CommRing R] [LinearOrder R] {point : Nat → R} :
    (compact bad minVar work).Holds point ↔
      ∀ index < work.rows, bad index (work.row index) = false →
        (work.row index).Holds work.cols point := by
  constructor
  · intro holds source inside good
    obtain ⟨index, low, same⟩ := exists_compact_row zeroBelow source inside good
    have own := holds index low
    rw [compact_cols zeroBelow] at own
    exact same.holds.mp own
  · intro holds index inside
    obtain ⟨source, low, good, same⟩ := compact_rows zeroBelow index inside
    rw [compact_cols zeroBelow]
    exact same.holds.mpr (holds source low good)

end Compact

end Work

/-! ## Systems -/

/-- The inequalities and the equations of a `SYSTEM_OF_EQUATIONS`. -/
structure System where
  le : List Row
  eq : List Row
  vars : Nat

namespace System

/-- A point that satisfies the inequalities. -/
def LeHolds {R : Type*} [CommRing R] [LinearOrder R] (system : System) (point : Nat → R) : Prop :=
  ∀ row ∈ system.le, row.Holds system.vars point

/-- A solution of the system. -/
structure Solves {R : Type*} [CommRing R] [LinearOrder R] (system : System)
    (point : Nat → R) : Prop where
  le : system.LeHolds point
  eq : ∀ row ∈ system.eq, row.value system.vars point = (row.bound : R)

end System

end OpenUH.Lno.SystemOfEquations
