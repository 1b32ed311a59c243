import OpenUH.Lno.SystemRows

/-!
# Constraints with a single variable

`SVPC` turns the rows of the work array with a single variable into bounds on
that variable.  Bounds are kept in 32 bits, with the extreme values for the
infinite ones.
-/

namespace OpenUH.Lno.SystemOfEquations

open Foundation
open Function (update_of_ne update_self)

/-! ## Bounds -/

/-- `INT32_INFIN::NEGINFINITE`. -/
def negInfinite : Int := -2 ^ 31

/-- `INT32_INFIN::INFINITE`. -/
def infinite : Int := int32Max

/-- `_lower_bound` and `_upper_bound`. -/
structure Bounds where
  lower : Nat → Int
  upper : Nat → Int

namespace Bounds

/-- No bounds yet. -/
def start : Bounds where
  lower _ := negInfinite
  upper _ := infinite

/-- A value is within the bounds of a variable. -/
structure Admits (bounds : Bounds) (var : Nat) (value : Int) : Prop where
  lower : bounds.lower var = negInfinite ∨ bounds.lower var ≤ value
  upper : bounds.upper var = infinite ∨ value ≤ bounds.upper var

/-- A point is within all bounds. -/
def Holds (bounds : Bounds) (cols : Nat) (point : Nat → Int) : Prop :=
  ∀ var < cols, bounds.Admits var (point var)

/-- The bounds are values of 32 bits, in order. -/
structure Ordered (bounds : Bounds) : Prop where
  low : ∀ var, negInfinite ≤ bounds.lower var
  high : ∀ var, bounds.upper var ≤ infinite
  order : ∀ var, bounds.lower var ≤ bounds.upper var
  lower_finite : ∀ var, bounds.lower var < infinite
  upper_finite : ∀ var, negInfinite < bounds.upper var

/-- `SVPC_Set_Bound`. -/
def setBound (row : Row) (var : Nat) (bounds : Bounds) : Bounds :=
  let work_const := row.bound
  let a := row.coeff var
  if a > 0 then
    let tmp := int32
      (if work_const ≥ 0 ∨ work_const.tmod a = 0 then work_const.tdiv a
      else -((-work_const).tdiv a) - 1)
    if tmp < bounds.upper var then
      { bounds with upper := Function.update bounds.upper var tmp }
    else
      bounds
  else if a < 0 then
    let tmp := int32
      (if work_const ≥ 0 ∨ work_const.tmod a = 0 then
        -(work_const.tdiv (int32 (-a)))
      else (-work_const).tdiv (int32 (-a)) + 1)
    if tmp > bounds.lower var then
      { bounds with lower := Function.update bounds.lower var tmp }
    else
      bounds
  else if work_const < 0 then
    { lower := Function.update bounds.lower var 1
      upper := Function.update bounds.upper var 0 }
  else
    bounds

end Bounds

/-- The constant is taken for an overflow. -/
def GuardsOff (work_const : Int) : Prop :=
  work_const ≥ int32Max - 1 ∨ work_const ≤ -2 ^ 31 + 1

instance (work_const : Int) : Decidable (GuardsOff work_const) :=
  inferInstanceAs (Decidable (_ ∨ _))

/--
`One_Var_Consistent`, for a list of rows; `allow` is `Allow_wrap_around_opt`.
-/
def oneVarConsistent (allow : Bool) (var : Nat) :
    List Row → Bounds → Bool × Bounds
  | [], bounds => (true, bounds)
  | row :: rows, bounds =>
      if allow = false then
        (true, bounds)
      else if GuardsOff row.bound then
        (true, bounds)
      else
        let bounds := bounds.setBound row var
        if bounds.lower var > bounds.upper var then (false, bounds)
        else oneVarConsistent allow var rows bounds

/-! ## The test -/

/-- `SVPC_RESULT` and `ACY_RESULT`. -/
inductive TestResult where
  | consistent
  | inconsistent
  | inapplicable
  deriving DecidableEq

/-- What `SVPC` has found. -/
structure Svpc where
  bounds : Bounds
  isSvpc : Nat → Bool
  applicable : Bool

/-- The columns of a row that are not zero. -/
def variablesOf (cols : Nat) (row : Row) : List Nat :=
  (List.range cols).filter (row.coeff · ≠ 0)

/-- The loop over the rows of `SVPC`. -/
def svpcLoop (allow : Bool) (work : Work) :
    List Nat → Svpc → TestResult × Svpc
  | [], svpc =>
      (if svpc.applicable then .consistent else .inapplicable, svpc)
  | i :: rows, svpc =>
      let row := work.row i
      match variablesOf work.cols row with
      | [] =>
          if row.bound < 0 then
            (.inconsistent, svpc)
          else
            svpcLoop allow work rows
              { svpc with isSvpc := Function.update svpc.isSvpc i true }
      | [var_pos] =>
          match oneVarConsistent allow var_pos [row] svpc.bounds with
          | (false, bounds) => (.inconsistent, { svpc with bounds := bounds })
          | (true, bounds) =>
              svpcLoop allow work rows
                { svpc with
                  bounds := bounds
                  isSvpc := Function.update svpc.isSvpc i true }
      | _ :: _ :: _ =>
          svpcLoop allow work rows
            { svpc with
              isSvpc := Function.update svpc.isSvpc i false
              applicable := false }

/-- `SVPC`; the marks of an earlier test are given. -/
def svpc (allow : Bool) (marks : Nat → Bool) (work : Work) : TestResult × Svpc :=
  svpcLoop allow work (List.range work.rows)
    { bounds := Bounds.start, isSvpc := marks, applicable := true }

/-! ## One row -/

section OneRow

variable {row : Row} {var cols : Nat} {bounds after : Bounds} {value : Int}

theorem start_ordered : Bounds.start.Ordered :=
  ⟨fun _ => le_refl _, fun _ => le_refl _,
    fun _ => show negInfinite ≤ infinite by decide,
    fun _ => show negInfinite < infinite by decide,
    fun _ => show negInfinite < infinite by decide⟩

/-- A quotient is no larger than the constant. -/
theorem quotient_range {c a : Int} (guard : ¬GuardsOff c) (positive : 0 < a) :
    -2 ^ 31 + 1 < c / a ∧ c / a < 2 ^ 31 - 2 := by
  have range : c < 2 ^ 31 - 1 - 1 ∧ -2 ^ 31 + 1 < c := by
    obtain ⟨high, low⟩ := not_or.mp guard
    unfold int32Max at high
    omega
  by_cases nonneg : 0 ≤ c
  · have low := Int.ediv_nonneg nonneg positive.le
    have high := Int.ediv_le_self a nonneg
    omega
  · have low : c ≤ c / a := by
      rw [Int.le_ediv_iff_mul_le positive]
      nlinarith
    have high : c / a < 0 := Int.ediv_neg_of_neg_of_pos (by omega) positive
    omega

/-- A bound from above is the quotient, rounded down. -/
theorem upper_quotient (guard : ¬GuardsOff row.bound) (positive : 0 < row.coeff var) :
    int32 (if row.bound ≥ 0 ∨ row.bound.tmod (row.coeff var) = 0 then
        row.bound.tdiv (row.coeff var)
      else -((-row.bound).tdiv (row.coeff var)) - 1) = row.bound / row.coeff var := by
  obtain ⟨low, high⟩ := quotient_range guard positive
  have exactly : (if row.bound ≥ 0 ∨ row.bound.tmod (row.coeff var) = 0 then
        row.bound.tdiv (row.coeff var)
      else -((-row.bound).tdiv (row.coeff var)) - 1) = row.bound / row.coeff var := by
    rw [Int.neg_tdiv, neg_neg, Int.tdiv_eq_ediv, Int.sign_eq_one_of_pos positive]
    by_cases whole : 0 ≤ row.bound ∨ row.coeff var ∣ row.bound
    · have tmod : row.bound ≥ 0 ∨ row.bound.tmod (row.coeff var) = 0 :=
        whole.imp_right Int.tmod_eq_zero_of_dvd
      rw [if_pos tmod, if_pos whole, add_zero]
    · have tmod : ¬(row.bound ≥ 0 ∨ row.bound.tmod (row.coeff var) = 0) :=
        fun either => whole (either.imp_right Int.dvd_of_tmod_eq_zero)
      rw [if_neg tmod, if_neg whole, add_sub_cancel_right]
  rw [exactly]
  exact Fits32.int32_eq ⟨by omega, by omega⟩

/-- A bound from below is the quotient, rounded up. -/
theorem lower_quotient (guard : ¬GuardsOff row.bound) (negative : row.coeff var < 0) :
    int32 (if row.bound ≥ 0 ∨ row.bound.tmod (row.coeff var) = 0 then
        -(row.bound.tdiv (int32 (-row.coeff var)))
      else (-row.bound).tdiv (int32 (-row.coeff var)) + 1) = -(row.bound / -row.coeff var) := by
  obtain ⟨low, high⟩ := @quotient_range _ (-row.coeff var) guard (by omega)
  have divides : -row.coeff var ∣ row.bound ↔ row.bound.tmod (row.coeff var) = 0 := by
    rw [Int.neg_dvd]
    exact ⟨Int.tmod_eq_zero_of_dvd, Int.dvd_of_tmod_eq_zero⟩
  have exactly : (if row.bound ≥ 0 ∨ row.bound.tmod (row.coeff var) = 0 then
        -(row.bound.tdiv (int32 (-row.coeff var)))
      else (-row.bound).tdiv (int32 (-row.coeff var)) + 1) = -(row.bound / -row.coeff var) := by
    by_cases smallest : row.coeff var = -2 ^ 31
    · have wraps : int32 (-(-2 ^ 31)) = -2 ^ 31 := by decide
      have range : row.bound < 2 ^ 31 - 1 - 1 ∧ -2 ^ 31 + 1 < row.bound := by
        obtain ⟨above, below⟩ := not_or.mp guard
        unfold int32Max at above
        omega
      have zero : row.bound.tdiv (2 ^ 31) = 0 := by
        rw [Int.tdiv_eq_ediv, Int.sign_eq_one_of_pos (by decide)]
        split_ifs with whole
        · omega
        · omega
      have literal : -(-2 ^ 31 : Int) = 2 ^ 31 := by decide
      rw [smallest, literal] at divides
      rw [smallest, wraps, Int.tdiv_neg, Int.tdiv_neg, Int.neg_tdiv, zero, literal]
      by_cases whole : 0 ≤ row.bound ∨ 2 ^ 31 ∣ row.bound
      · rw [if_pos (whole.imp_right divides.mp)]
        omega
      · rw [if_neg fun either => whole (either.imp_right divides.mpr)]
        omega
    · have fits := row.fits var
      have below := fits.low
      have exactNeg : int32 (-row.coeff var) = -row.coeff var :=
        Fits32.int32_eq ⟨by omega, by omega⟩
      rw [exactNeg, Int.neg_tdiv, Int.tdiv_eq_ediv,
        Int.sign_eq_one_of_pos (by omega : 0 < -row.coeff var)]
      by_cases whole : 0 ≤ row.bound ∨ -row.coeff var ∣ row.bound
      · rw [if_pos (whole.imp_right divides.mp), if_pos whole, add_zero]
      · rw [if_neg fun either => whole (either.imp_right divides.mpr), if_neg whole]
        ring
  rw [exactly]
  exact Fits32.int32_eq ⟨by omega, by omega⟩

/-- A constraint on one variable, at a value of it. -/
def Row.Limits (row : Row) (var : Nat) (value : Int) : Prop :=
  row.coeff var * value ≤ row.bound

/-- The bounds of the other variables stay. -/
theorem setBound_other {other : Nat} (apart : other ≠ var) :
    (bounds.setBound row var).lower other = bounds.lower other ∧
      (bounds.setBound row var).upper other = bounds.upper other := by
  unfold Bounds.setBound
  dsimp only
  split_ifs <;> simp [update_of_ne apart]

/-- The new bounds of the variable are the old ones and the constraint. -/
theorem setBound_admits (guard : ¬GuardsOff row.bound) (range : bounds.Ordered) :
    (bounds.setBound row var).Admits var value ↔
      bounds.Admits var value ∧ row.Limits var value := by
  have low := range.lower_finite var
  have high := range.upper_finite var
  unfold Bounds.setBound Row.Limits
  dsimp only
  rcases lt_trichotomy (row.coeff var) 0 with negative | zero | positive
  · obtain ⟨above, below⟩ := @quotient_range _ (-row.coeff var) guard (by omega)
    have constraint : row.coeff var * value ≤ row.bound ↔
        -(row.bound / -row.coeff var) ≤ value := by
      rw [neg_le, Int.le_ediv_iff_mul_le (by omega), neg_mul_neg, mul_comm]
    rw [if_neg (by omega), if_pos negative, lower_quotient guard negative, constraint]
    have isFinite : -(row.bound / -row.coeff var) ≠ negInfinite := by
      unfold negInfinite
      omega
    split
    · rename_i tighter
      constructor
      · rintro ⟨lower, upper⟩
        dsimp only at lower upper
        rw [update_self] at lower
        have within := lower.resolve_left isFinite
        exact ⟨⟨.inr (by omega), upper⟩, within⟩
      · rintro ⟨⟨-, upper⟩, within⟩
        refine ⟨.inr ?_, upper⟩
        dsimp only
        rw [update_self]
        exact within
    · rename_i looser
      refine ⟨fun admits => ⟨admits, ?_⟩, fun both => both.1⟩
      rcases admits.lower with open' | within
      · rw [open'] at looser
        unfold negInfinite at looser
        omega
      · omega
  · rw [if_neg (by omega), if_neg (by omega), zero, zero_mul]
    split
    · rename_i below
      constructor
      · rintro ⟨lower, upper⟩
        dsimp only at lower upper
        rw [update_self] at lower upper
        have first := lower.resolve_left (by decide)
        have second := upper.resolve_left (by decide)
        omega
      · rintro ⟨-, within⟩
        omega
    · rename_i nonneg
      exact ⟨fun admits => ⟨admits, not_lt.mp nonneg⟩, fun both => both.1⟩
  · obtain ⟨below, above⟩ := quotient_range guard positive
    have constraint : row.coeff var * value ≤ row.bound ↔ value ≤ row.bound / row.coeff var := by
      rw [Int.le_ediv_iff_mul_le positive, mul_comm]
    rw [if_pos positive, upper_quotient guard positive, constraint]
    have isFinite : row.bound / row.coeff var ≠ infinite := by
      unfold infinite int32Max
      omega
    split
    · rename_i tighter
      constructor
      · rintro ⟨lower, upper⟩
        dsimp only at lower upper
        rw [update_self] at upper
        have within := upper.resolve_left isFinite
        exact ⟨⟨lower, .inr (by omega)⟩, within⟩
      · rintro ⟨⟨lower, -⟩, within⟩
        refine ⟨lower, .inr ?_⟩
        dsimp only
        rw [update_self]
        exact within
    · rename_i looser
      refine ⟨fun admits => ⟨admits, ?_⟩, fun both => both.1⟩
      rcases admits.upper with open' | within
      · rw [open'] at looser
        unfold infinite int32Max at looser
        omega
      · omega

/-- The new bounds are values of 32 bits. -/
theorem setBound_range (guard : ¬GuardsOff row.bound) (ordered : bounds.Ordered) :
    (∀ other, negInfinite ≤ (bounds.setBound row var).lower other ∧
      (bounds.setBound row var).lower other < infinite) ∧
      ∀ other, negInfinite < (bounds.setBound row var).upper other ∧
        (bounds.setBound row var).upper other ≤ infinite := by
  have lowers : ∀ other, negInfinite ≤ bounds.lower other ∧ bounds.lower other < infinite :=
    fun other => ⟨ordered.low other, ordered.lower_finite other⟩
  have uppers : ∀ other, negInfinite < bounds.upper other ∧ bounds.upper other ≤ infinite :=
    fun other => ⟨ordered.upper_finite other, ordered.high other⟩
  have updated : ∀ (bound : Nat → Int) (tmp : Int) (property : Int → Prop),
      property tmp → (∀ other, property (bound other)) →
        ∀ other, property (Function.update bound var tmp other) := by
    intro bound tmp property new old other
    by_cases here : other = var
    · rw [here, update_self]
      exact new
    · rw [update_of_ne here]
      exact old other
  unfold Bounds.setBound
  dsimp only
  rcases lt_trichotomy (row.coeff var) 0 with negative | zero | positive
  · obtain ⟨above, below⟩ :=
      @quotient_range _ (-row.coeff var) guard (by omega)
    rw [if_neg (by omega), if_pos negative, lower_quotient guard negative]
    split
    · refine ⟨updated _ _ (fun bound => negInfinite ≤ bound ∧ bound < infinite) ?_ lowers, uppers⟩
      unfold negInfinite infinite int32Max
      omega
    · exact ⟨lowers, uppers⟩
  · rw [if_neg (by omega), if_neg (by omega)]
    split
    · exact ⟨updated _ _ (fun bound => negInfinite ≤ bound ∧ bound < infinite)
        (by decide) lowers,
        updated _ _ (fun bound => negInfinite < bound ∧ bound ≤ infinite) (by decide) uppers⟩
    · exact ⟨lowers, uppers⟩
  · obtain ⟨below, above⟩ := quotient_range guard positive
    rw [if_pos positive, upper_quotient guard positive]
    split
    · refine ⟨lowers, updated _ _ (fun bound => negInfinite < bound ∧ bound ≤ infinite) ?_ uppers⟩
      unfold negInfinite infinite int32Max
      omega
    · exact ⟨lowers, uppers⟩

/-- A bound that is passed keeps all bounds in order. -/
theorem setBound_ordered (guard : ¬GuardsOff row.bound) (ordered : bounds.Ordered)
    (passed : (bounds.setBound row var).lower var ≤ (bounds.setBound row var).upper var) :
    (bounds.setBound row var).Ordered := by
  have range := @setBound_range row var bounds guard ordered
  refine ⟨fun other => (range.1 other).1, fun other => (range.2 other).2,
    fun other => ?_, fun other => (range.1 other).2,
    fun other => (range.2 other).1⟩
  by_cases here : other = var
  · rw [here]
    exact passed
  · obtain ⟨lower, upper⟩ := @setBound_other row var bounds other here
    rw [lower, upper]
    exact ordered.order other

/-- The new bounds are the old ones and the constraint. -/
theorem setBound_holds {point : Nat → Int} (guard : ¬GuardsOff row.bound)
    (ordered : bounds.Ordered) (inside : var < cols) :
    (bounds.setBound row var).Holds cols point ↔
      bounds.Holds cols point ∧ row.Limits var (point var) := by
  have others : ∀ other, other ≠ var →
      ((bounds.setBound row var).Admits other (point other) ↔
        bounds.Admits other (point other)) := by
    intro other apart
    obtain ⟨lower, upper⟩ := @setBound_other row var bounds other apart
    exact ⟨fun ⟨first, second⟩ => ⟨lower ▸ first, upper ▸ second⟩,
      fun ⟨first, second⟩ => ⟨lower.symm ▸ first, upper.symm ▸ second⟩⟩
  have own := @setBound_admits row var bounds (point var) guard ordered
  constructor
  · intro holds
    obtain ⟨admits, limits⟩ := own.mp (holds var inside)
    refine ⟨fun other below => ?_, limits⟩
    by_cases here : other = var
    · rw [here]
      exact admits
    · exact (others other here).mp (holds other below)
  · rintro ⟨holds, limits⟩ other below
    by_cases here : other = var
    · rw [here]
      exact own.mpr ⟨holds var inside, limits⟩
    · exact (others other here).mpr (holds other below)

/-- A value that is admitted keeps the bounds in order. -/
theorem le_of_admits (low : negInfinite ≤ bounds.upper var)
    (high : bounds.lower var ≤ infinite) (admits : bounds.Admits var value) :
    bounds.lower var ≤ bounds.upper var := by
  rcases admits.lower with lower | lower
  · omega
  · rcases admits.upper with upper | upper
    · omega
    · omega

/-- Points that satisfy the rows keep the test consistent, and are within the
new bounds. -/
theorem oneVarConsistent_sound {allow : Bool} {rows : List Row}
    {point : Nat → Int} (ordered : bounds.Ordered) (inside : var < cols)
    (limits : ∀ row ∈ rows, row.Limits var (point var)) (holds : bounds.Holds cols point) :
    (oneVarConsistent allow var rows bounds).1 = true ∧
      (oneVarConsistent allow var rows bounds).2.Holds cols point := by
  induction rows generalizing bounds with
  | nil => exact ⟨rfl, holds⟩
  | cons row rows ih =>
      unfold oneVarConsistent
      split_ifs with off guard
      · exact ⟨rfl, holds⟩
      · exact ⟨rfl, holds⟩
      · have after := (setBound_holds guard ordered inside).mpr
          ⟨holds, limits row List.mem_cons_self⟩
        have passed : (bounds.setBound row var).lower var ≤
            (bounds.setBound row var).upper var := by
          have range := @setBound_range row var bounds guard ordered
          have low := range.2 var
          exact le_of_admits (low.1.le) (range.1 var).2.le (after var inside)
        dsimp only
        rw [if_neg (not_lt.mpr passed)]
        exact ih (setBound_ordered guard ordered passed)
          (fun other member => limits other (List.mem_cons_of_mem _ member))
          after

/-- A test that is passed leaves bounds in order. -/
theorem oneVarConsistent_ordered {allow : Bool} {rows : List Row} (ordered : bounds.Ordered)
    (passed : oneVarConsistent allow var rows bounds = (true, after)) :
    after.Ordered := by
  induction rows generalizing bounds with
  | nil =>
      cases passed
      exact ordered
  | cons row rows ih =>
      unfold oneVarConsistent at passed
      dsimp only at passed
      split_ifs at passed with off guard crossed
      · cases passed
        exact ordered
      · cases passed
        exact ordered
      · cases passed
      · exact ih (setBound_ordered guard ordered (not_lt.mp crossed)) passed

/-- Where the guards stay off, the new bounds are the old ones and the rows. -/
theorem oneVarConsistent_complete {rows : List Row} {point : Nat → Int}
    (ordered : bounds.Ordered) (inside : var < cols) (guards : ∀ row ∈ rows, ¬GuardsOff row.bound)
    (passed : oneVarConsistent true var rows bounds = (true, after))
    (holds : after.Holds cols point) :
    bounds.Holds cols point ∧ ∀ row ∈ rows, row.Limits var (point var) := by
  induction rows generalizing bounds with
  | nil =>
      cases passed
      exact ⟨holds, nofun⟩
  | cons row rows ih =>
      have guard := guards row List.mem_cons_self
      unfold oneVarConsistent at passed
      dsimp only at passed
      rw [if_neg (by decide), if_neg guard] at passed
      split_ifs at passed with crossed
      · cases passed
      · obtain ⟨before, rest⟩ := ih
          (setBound_ordered guard ordered (not_lt.mp crossed))
          (fun other member => guards other (List.mem_cons_of_mem _ member))
          passed
        obtain ⟨first, own⟩ := (setBound_holds guard ordered inside).mp before
        exact ⟨first, List.forall_mem_cons.mpr ⟨own, rest⟩⟩

end OneRow

/-! ## All rows -/

section Rows

variable {allow : Bool} {cols k var : Nat} {row : Row} {work : Work}
  {point : Nat → Int}

theorem mem_variablesOf : var ∈ variablesOf cols row ↔ var < cols ∧ row.coeff var ≠ 0 := by
  unfold variablesOf
  rw [List.mem_filter, List.mem_range, decide_eq_true_iff]

/-- A row with a single variable is a constraint on it. -/
theorem holds_of_single (single : variablesOf cols row = [var]) :
    var < cols ∧ (row.Holds cols point ↔ row.Limits var (point var)) := by
  have member : var ∈ variablesOf cols row := single ▸ List.mem_singleton_self _
  obtain ⟨inside, -⟩ := mem_variablesOf.mp member
  refine ⟨inside, ?_⟩
  unfold Inequality.Holds Row.Limits
  rw [Inequality.value_single inside fun other below apart => ?_]
  · rfl
  · by_contra nonzero
    have isOther := mem_variablesOf.mpr ⟨below, nonzero⟩
    rw [single, List.mem_singleton] at isOther
    exact apart isOther

/-- A row without variables. -/
theorem holds_of_none (empty : variablesOf cols row = []) :
    row.Holds cols point ↔ 0 ≤ row.bound := by
  refine Inequality.holds_of_zero fun col inside => ?_
  by_contra nonzero
  have member := mem_variablesOf.mpr ⟨inside, nonzero⟩
  rw [empty] at member
  exact List.not_mem_nil member

/-- The rows that are marked among those scanned, and the bounds they give. -/
structure Tracks (work : Work) (scanned : Set Nat) (isSvpc : Nat → Bool)
    (bounds : Bounds) : Prop where
  ordered : bounds.Ordered
  marks : ∀ i ∈ scanned, isSvpc i = true ↔ (variablesOf work.cols (work.row i)).length ≤ 1
  sound : ∀ point : Nat → Int,
    (∀ i ∈ scanned, isSvpc i = true →
      (work.row i).Holds work.cols point) → bounds.Holds work.cols point

/-- The marked rows hold within the bounds. -/
def Complete (work : Work) (scanned : Set Nat) (isSvpc : Nat → Bool) (bounds : Bounds) : Prop :=
  ∀ point : Nat → Int, bounds.Holds work.cols point →
    ∀ i ∈ scanned, isSvpc i = true → (work.row i).Holds work.cols point

/-- The guards stay off for the rows with a single variable. -/
def GuardsHold (work : Work) : Prop :=
  ∀ i < work.rows, ∀ var,
    variablesOf work.cols (work.row i) = [var] → ¬GuardsOff (work.row i).bound

section Marks

variable {scanned : Set Nat} {isSvpc : Nat → Bool} {bounds after : Bounds}

/-- One more row is scanned, and marked as its variables say. -/
theorem Tracks.mark {mark : Bool} (tracks : Tracks work scanned isSvpc bounds)
    (fresh : k ∉ scanned) (ordered : after.Ordered)
    (own : mark = true ↔ (variablesOf work.cols (work.row k)).length ≤ 1)
    (sound : ∀ point : Nat → Int, bounds.Holds work.cols point →
      (mark = true → (work.row k).Holds work.cols point) → after.Holds work.cols point) :
    Tracks work (insert k scanned) (Function.update isSvpc k mark) after := by
  have kept : ∀ i ∈ scanned, Function.update isSvpc k mark i = isSvpc i := by
    intro i member
    refine update_of_ne ?_ _ _
    rintro rfl
    exact fresh member
  refine ⟨ordered, fun i member => ?_, fun point all => sound point ?_ ?_⟩
  · rcases Set.mem_insert_iff.mp member with rfl | old
    · rw [update_self]
      exact own
    · rw [kept i old]
      exact tracks.marks i old
  · refine tracks.sound point fun i old marked => ?_
    exact all i (Set.mem_insert_of_mem _ old) ((kept i old).trans marked)
  · intro marked
    exact all k (Set.mem_insert _ _) ((update_self _ _ _).trans marked)

theorem Complete.mark {mark : Bool} (complete : Complete work scanned isSvpc bounds)
    (fresh : k ∉ scanned)
    (own : ∀ point : Nat → Int, after.Holds work.cols point →
      bounds.Holds work.cols point ∧ (mark = true → (work.row k).Holds work.cols point)) :
    Complete work (insert k scanned) (Function.update isSvpc k mark) after := by
  intro point holds i member marked
  obtain ⟨before, hold⟩ := own point holds
  rcases Set.mem_insert_iff.mp member with rfl | old
  · rw [update_self] at marked
    exact hold marked
  · have apart : i ≠ k := by
      rintro rfl
      exact fresh old
    rw [update_of_ne apart] at marked
    exact complete point before i old marked

/-- A row with a single variable gives the bounds it constrains. -/
theorem single_sound (ordered : bounds.Ordered)
    (single : variablesOf work.cols (work.row k) = [var])
    (passed : oneVarConsistent allow var [work.row k] bounds = (true, after))
    (before : bounds.Holds work.cols point) (own : (work.row k).Holds work.cols point) :
    after.Holds work.cols point := by
  obtain ⟨inside, limits⟩ := @holds_of_single _ _ _ point single
  have result : (oneVarConsistent allow var [work.row k] bounds).2.Holds
      work.cols point := (oneVarConsistent_sound ordered inside
    (List.forall_mem_singleton.mpr (limits.mp own)) before).2
  rw [passed] at result
  exact result

theorem single_complete (ordered : bounds.Ordered)
    (single : variablesOf work.cols (work.row k) = [var]) (guard : ¬GuardsOff (work.row k).bound)
    (passed : oneVarConsistent true var [work.row k] bounds = (true, after))
    (holds : after.Holds work.cols point) :
    bounds.Holds work.cols point ∧ (work.row k).Holds work.cols point := by
  obtain ⟨inside, limits⟩ := @holds_of_single _ _ _ point single
  obtain ⟨before, own⟩ := oneVarConsistent_complete ordered inside
    (List.forall_mem_singleton.mpr guard) passed holds
  exact ⟨before, limits.mpr (own _ (List.mem_singleton_self _))⟩

/-- A point within the bounds and a row with a single variable refute an
inconsistency. -/
theorem single_crossed (ordered : bounds.Ordered)
    (single : variablesOf work.cols (work.row k) = [var])
    (crossed : oneVarConsistent allow var [work.row k] bounds = (false, after))
    (before : bounds.Holds work.cols point) :
    ¬(work.row k).Holds work.cols point := by
  intro own
  obtain ⟨inside, limits⟩ := @holds_of_single _ _ _ point single
  have result : (oneVarConsistent allow var [work.row k] bounds).1 = true :=
    (oneVarConsistent_sound ordered inside (List.forall_mem_singleton.mpr (limits.mp own)) before).1
  rw [crossed] at result
  cases result

end Marks

theorem insert_below : insert k { i | i < k } = { i | i < k + 1 } := by
  ext i
  rw [Set.mem_insert_iff, Set.mem_ofPred_eq, Set.mem_ofPred_eq]
  omega

/-- What `SVPC` finds in all rows. -/
theorem svpcLoop_spec {rows : Nat} {found after : Svpc} {result : TestResult}
    (inside : k + rows = work.rows) (tracks : Tracks work { i | i < k } found.isSvpc found.bounds)
    (applicable : found.applicable = true ↔
      ∀ i < k, (variablesOf work.cols (work.row i)).length ≤ 1)
    (complete : allow = true → GuardsHold work →
      Complete work { i | i < k } found.isSvpc found.bounds)
    (ran : svpcLoop allow work (List.range' k rows) found = (result, after)) :
    if result = .inconsistent then ∀ point : Nat → Int, ¬work.Holds point
    else
      Tracks work { i | i < work.rows } after.isSvpc after.bounds ∧
        (result = .consistent ↔ ∀ i < work.rows, (variablesOf work.cols (work.row i)).length ≤ 1) ∧
        (allow = true → GuardsHold work →
          Complete work { i | i < work.rows } after.isSvpc after.bounds) := by
  induction rows generalizing k found with
  | zero =>
      have all : k = work.rows := by omega
      rw [all] at tracks applicable complete
      unfold svpcLoop at ran
      rw [List.range'_zero] at ran
      obtain ⟨isResult, rfl⟩ := Prod.mk.inj ran
      have notInconsistent : result ≠ .inconsistent := by
        rw [← isResult]
        split <;> decide
      rw [if_neg notInconsistent]
      refine ⟨tracks, ?_, complete⟩
      rw [← applicable, ← isResult]
      split <;> simp [*]
  | succ rows ih =>
      rw [List.range'_succ] at ran
      unfold svpcLoop at ran
      dsimp only at ran
      have next : k + 1 + rows = work.rows := by omega
      have fresh : k ∉ { i | i < k } := lt_irrefl k
      have extend : ∀ {P : Nat → Prop},
          (∀ i < k + 1, P i) ↔ (∀ i < k, P i) ∧ P k := Nat.forall_lt_succ_right
      have sound : ∀ point : Nat → Int, work.Holds point →
          found.bounds.Holds work.cols point := fun point holds =>
        tracks.sound point fun i below _ =>
          holds i (lt_trans below (by omega))
      split at ran
      · rename_i empty
        split at ran
        · rename_i negative
          obtain ⟨rfl, -⟩ := Prod.mk.inj ran
          rw [if_pos rfl]
          intro point holds
          have own := (holds_of_none empty).mp (holds k (by omega))
          omega
        · rename_i nonneg
          refine ih next ?_ ?_ (fun on guards => ?_) ran
          · rw [← insert_below]
            refine tracks.mark fresh tracks.ordered ?_ fun _ holds _ => holds
            rw [empty]
            simp
          · rw [extend, empty]
            simpa using applicable
          · rw [← insert_below]
            exact (complete on guards).mark fresh fun point holds =>
              ⟨holds, fun _ => (holds_of_none empty).mpr (not_lt.mp nonneg)⟩
      · rename_i var single
        split at ran
        · rename_i bounds crossed
          obtain ⟨rfl, -⟩ := Prod.mk.inj ran
          rw [if_pos rfl]
          exact fun point holds => single_crossed tracks.ordered single crossed
            (sound point holds) (holds k (by omega))
        · rename_i bounds passed
          refine ih next ?_ ?_ (fun on guards => ?_) ran
          · rw [← insert_below]
            refine tracks.mark fresh
              (oneVarConsistent_ordered tracks.ordered passed) ?_
              fun point holds own =>
                single_sound tracks.ordered single passed holds (own rfl)
            rw [single]
            simp
          · rw [extend, single]
            simpa using applicable
          · rw [on] at passed
            rw [← insert_below]
            refine (complete on guards).mark fresh fun point holds => ?_
            obtain ⟨before, own⟩ := single_complete tracks.ordered single
              (guards k (by omega) var single) passed holds
            exact ⟨before, fun _ => own⟩
      · rename_i first second rest several
        have long : 1 < (variablesOf work.cols (work.row k)).length := by
          rw [several]
          simp
        refine ih next ?_ ?_ (fun on guards => ?_) ran
        · rw [← insert_below]
          refine tracks.mark fresh tracks.ordered ?_ fun _ holds _ => holds
          simp only [Bool.false_eq_true, false_iff]
          exact not_le.mpr long
        · rw [extend]
          simp only [Bool.false_eq_true, false_iff, not_and]
          exact fun _ => not_le.mpr long
        · rw [← insert_below]
          exact (complete on guards).mark fresh fun point holds =>
            ⟨holds, nofun⟩

theorem svpc_spec {marks : Nat → Bool} {after : Svpc} {result : TestResult}
    (ran : svpc allow marks work = (result, after)) :
    if result = .inconsistent then ∀ point : Nat → Int, ¬work.Holds point
    else
      Tracks work { i | i < work.rows } after.isSvpc after.bounds ∧
        (result = .consistent ↔ ∀ i < work.rows, (variablesOf work.cols (work.row i)).length ≤ 1) ∧
        (allow = true → GuardsHold work →
          Complete work { i | i < work.rows } after.isSvpc after.bounds) := by
  unfold svpc at ran
  rw [List.range_eq_range'] at ran
  refine svpcLoop_spec (Nat.zero_add _) ⟨start_ordered, ?_, ?_⟩ ?_ ?_ ran
  · exact fun i below => absurd below (Nat.not_lt_zero _)
  · exact fun point _ var _ => ⟨.inl rfl, .inl rfl⟩
  · simp
  · exact fun _ _ point _ i below => absurd below (Nat.not_lt_zero _)

/-- Bounds in order admit a point. -/
theorem exists_holds {bounds : Bounds} (ordered : bounds.Ordered) :
    ∃ point, bounds.Holds cols point := by
  refine ⟨fun var =>
    if bounds.lower var = negInfinite then
      if bounds.upper var = infinite then 0 else bounds.upper var
    else bounds.lower var, fun var _ => ?_⟩
  have order := ordered.order var
  dsimp only
  split_ifs with open' wide
  · exact ⟨.inl open', .inl wide⟩
  · exact ⟨.inl open', .inr (le_refl _)⟩
  · exact ⟨.inr (le_refl _), .inr order⟩

end Rows

end OpenUH.Lno.SystemOfEquations
