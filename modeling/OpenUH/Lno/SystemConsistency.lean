import OpenUH.Lno.SystemAcyclic
import OpenUH.Lno.SystemSubstitution

/-!
# The consistency test

`Is_Consistent` copies a system to the work array, solves its equations, and
applies the tests one after the other.  Each stage keeps an integer solution,
so that a system that is proved inconsistent has none.
-/

namespace OpenUH.Lno.SystemOfEquations

open Foundation

/-! ## Copies -/

/-- Copy a row behind the last one. -/
def Work.push (work : Work) (row : Row) : Work :=
  { work.setRow work.rows (Row.copy 0 work.cols (work.row work.rows) row) with
    rows := work.rows + 1 }

/--
`Copy_To_Work`, for a list of rows of the system: nothing where there is not
enough space.
-/
def System.copyRows (rows : List Row) (system : System) (work : Work) : Option Work :=
  if work.rows + rows.length > maxWorkRows then
    none
  else if work.rows = 0 then
    if system.vars > maxWorkCols then
      none
    else
      some (rows.foldl Work.push { work with cols := system.vars })
  else
    some (rows.foldl Work.push work)

/-- `Copy_To_Work`, for all rows. -/
def System.copyToWork (system : System) (work : Work) : Option Work :=
  if system.vars > maxWorkCols then
    none
  else
    system.copyRows system.le { work with cols := system.vars, rows := 0 }

/-! ## Normalization -/

/-- The divisor that `Gcd_Normalize` finds for a row. -/
def Row.divisor (cols : Nat) (row : Row) : Int :=
  match row.firstNonZero cols with
  | none => 0
  | some j =>
      (List.range' (j + 1) (cols - (j + 1))).foldl
        (fun g col => gcd g (abs32 (row.coeff col))) (abs32 (row.coeff j))

theorem Row.fits_divided (row : Row) (cols : Nat) (divisor : Int) (col : Nat) :
    Fits32 (if col < cols then int32 ((row.coeff col).tdiv divisor)
      else row.coeff col) := by
  split
  · exact fits_int32 _
  · exact row.fits col

/-- Divide a row, and tighten the constant. -/
def Row.tighten (cols : Nat) (g : Int) (row : Row) : Row where
  coeff col :=
    if col < cols then int32 ((row.coeff col).tdiv g) else row.coeff col
  bound :=
    if row.bound > 0 ∨ row.bound.tmod g = 0 then row.bound.tdiv g
    else row.bound.tdiv g - 1
  fits := row.fits_divided cols g

/-- One row of `Gcd_Normalize`. -/
def Row.gcdNormalize (cols : Nat) (row : Row) : Row :=
  let g := row.divisor cols
  if g ≠ 0 ∧ g ≠ 1 then row.tighten cols g else row

/-- `Gcd_Normalize`. -/
def Work.gcdNormalize (work : Work) : Work :=
  { work with
    row := fun index =>
      if index < work.rows then (work.row index).gcdNormalize work.cols
      else work.row index }

/-! ## The tests -/

theorem acyclicLoop_isSome (allow : Bool) (turn : Turn) :
    (acyclicLoop allow (remaining turn + 1) turn).isSome = true :=
  Option.isSome_iff_exists.mpr acyclicLoop_ends

/-- `Acyclic_Test`, with as many turns as it needs. -/
def acyclicTest (allow : Bool) (work : Work) (found : Svpc) : TestResult × Acyclic :=
  (acyclicLoop allow (remaining (firstTurn work found) + 1)
    (firstTurn work found)).get (acyclicLoop_isSome _ _)

/--
The loop of `Is_Consistent_Work` over the variables that are projected, and the
test of the last one.
-/
def fourier (allow : Bool) (bounds : Bounds) : Nat → Nat → Work → Bool
  | 0, _, work =>
      (oneVarConsistent allow (work.cols - 1)
        ((List.range work.rows).map work.row) bounds).1
  | remaining + 1, i, work =>
      match work.project i i with
      | none => true
      | some (_, true) => false
      | some (work, false) => fourier allow bounds remaining (i + 1) work

/-- `Is_Consistent_Work`; the marks of an earlier test are given. -/
def isConsistentWork (allow : Bool) (marks : Nat → Bool) (work : Work) : Bool :=
  match svpc allow marks work with
  | (.consistent, _) => true
  | (.inconsistent, _) => false
  | (.inapplicable, found) =>
      match acyclicTest allow work found with
      | (.consistent, _) => true
      | (.inconsistent, _) => false
      | (.inapplicable, acyclic) =>
          fourier allow acyclic.bounds (acyclic.work.cols - 1) 0
            acyclic.work.gcdNormalize

/--
`Is_Consistent`, with the work array and the marks as an earlier test has left
them; nothing where the equations need more turns.
-/
def System.isConsistent (turns : Nat) (allow : Bool) (marks : Nat → Bool)
    (work : Work) (system : System) : Option Bool :=
  match system.copyToWork work with
  | none => some true
  | some work =>
      match system.subInEqual turns work with
      | none => none
      | some .failed => some true
      | some .inconsistent => some false
      | some (.done work) => some (isConsistentWork allow marks work)

/-! ## Copied rows -/

section Copies

variable {work after : Work} {row : Row} {rows : List Row} {system : System}
  {point : Nat → Int}

theorem push_holds : (work.push row).Holds point ↔
    work.Holds point ∧ row.Holds work.cols point := by
  have own : (work.push row).row work.rows = Row.copy 0 work.cols (work.row work.rows) row :=
    Function.update_self _ _ _
  have others : ∀ index < work.rows, (work.push row).row index = work.row index :=
    fun index below => Function.update_of_ne below.ne _ _
  have copied : (Row.copy 0 work.cols (work.row work.rows) row).Holds work.cols
      point ↔ row.Holds work.cols point := by
    refine Row.Same.holds ⟨fun column inside => ?_, rfl⟩
    exact if_pos ⟨Nat.zero_le _, inside⟩
  change (∀ index < work.rows + 1, _) ↔ _
  rw [Nat.forall_lt_succ_right, own]
  refine and_congr (forall₂_congr fun index below => ?_) copied
  rw [others index below]
  rfl

theorem foldl_push_cols : (rows.foldl Work.push work).cols = work.cols := by
  induction rows generalizing work with
  | nil => rfl
  | cons row rows ih => exact ih

theorem foldl_push_holds : (rows.foldl Work.push work).Holds point ↔
    work.Holds point ∧ ∀ row ∈ rows, row.Holds work.cols point := by
  induction rows generalizing work with
  | nil => simp
  | cons row rows ih =>
      rw [List.foldl_cons, ih, push_holds, List.forall_mem_cons, and_assoc]
      rfl

/-- The rows that are copied are those of the list. -/
theorem copyRows_holds (agree : work.rows ≠ 0 → work.cols = system.vars)
    (copied : system.copyRows rows work = some after) :
    after.cols = system.vars ∧ (after.Holds point ↔
      work.Holds point ∧ ∀ row ∈ rows, row.Holds system.vars point) := by
  unfold System.copyRows at copied
  split_ifs at copied with space empty vars
  · cases copied
    rw [foldl_push_cols, foldl_push_holds]
    refine ⟨rfl, and_congr_left fun _ => ?_⟩
    exact ⟨fun _ index below => by omega, fun _ index below => by
      change index < work.rows at below
      omega⟩
  · cases copied
    rw [foldl_push_cols, foldl_push_holds, agree empty]
    exact ⟨rfl, Iff.rfl⟩

theorem copyToWork_holds (copied : system.copyToWork work = some after) :
    after.cols = system.vars ∧ (after.Holds point ↔ system.LeHolds point) := by
  unfold System.copyToWork at copied
  split_ifs at copied with vars
  obtain ⟨cols, holds⟩ := @copyRows_holds { work with
    cols := system.vars, rows := 0 } after system.le system point
      (fun nonzero => absurd rfl nonzero) copied
  refine ⟨cols, holds.trans ⟨fun both => both.2, fun all => ⟨?_, all⟩⟩⟩
  exact fun index below => absurd below (Nat.not_lt_zero _)

end Copies

/-! ## Normalized rows -/

/-- No coefficient is the smallest one, which has no absolute value. -/
def Row.NoSmallest (row : Row) (cols : Nat) : Prop :=
  ∀ col < cols, row.coeff col ≠ -2 ^ 31

section Normalization

variable {cols : Nat} {row : Row} {work : Work} {point : Nat → Int} {g : Int}

theorem abs32_nonneg {col : Nat} (apart : row.coeff col ≠ -2 ^ 31) :
    abs32 (row.coeff col) ∣ row.coeff col ∧ 0 ≤ abs32 (row.coeff col) ∧
      abs32 (row.coeff col) ≤ int32Max := by
  obtain ⟨exactly, small⟩ := abs32_range apart
  rw [exactly]
  exact ⟨(abs_dvd _ _).mpr (dvd_refl _), abs_nonneg _, small⟩

/-- The divisor so far divides the columns that are looked at. -/
theorem divisorLoop_spec {low count : Nat} (noSmallest : row.NoSmallest cols)
    (inside : low + count ≤ cols) (nonneg : 0 ≤ g) (small : g ≤ int32Max) :
    let d := (List.range' low count).foldl (fun g col => gcd g (abs32 (row.coeff col))) g
    0 ≤ d ∧ d ≤ int32Max ∧ d ∣ g ∧ ∀ col, low ≤ col → col < low + count → d ∣ row.coeff col := by
  induction count generalizing low g with
  | zero =>
      exact ⟨nonneg, small, dvd_refl _, fun col above below => by omega⟩
  | succ count ih =>
      obtain ⟨abs, absNonneg, absSmall⟩ := abs32_nonneg (noSmallest low (by omega))
      have step := gcd_eq nonneg small absNonneg absSmall
      have least : (Int.gcd g (abs32 (row.coeff low)) : Int) ≤ int32Max := by
        by_cases zero : g = 0
        · rw [zero, Int.gcd_zero_left, Int.natAbs_of_nonneg absNonneg]
          exact absSmall
        · exact (Int.le_of_dvd (by omega) (Int.gcd_dvd_left _ _)).trans small
      rw [List.range'_succ, List.foldl_cons, step]
      obtain ⟨isNonneg, isSmall, divides, others⟩ := ih
        (by omega : low + 1 + count ≤ cols) (Int.natCast_nonneg _) least
      refine ⟨isNonneg, isSmall, divides.trans (Int.gcd_dvd_left _ _),
        fun col above below => ?_⟩
      by_cases here : col = low
      · rw [here]
        exact (divides.trans (Int.gcd_dvd_right _ _)).trans abs
      · exact others col (by omega) (by omega)

/-- The divisor divides all coefficients. -/
theorem divisor_spec (noSmallest : row.NoSmallest cols) :
    0 ≤ row.divisor cols ∧ ∀ col < cols, row.divisor cols ∣ row.coeff col := by
  unfold Row.divisor
  split
  · rename_i absent
    refine ⟨le_refl _, fun col inside => ?_⟩
    rw [Row.zero_of_firstNonZero absent col inside]
  · rename_i j found
    obtain ⟨inside, -, zeros⟩ := Row.zeroBelow_of_firstNonZero found
    obtain ⟨abs, absNonneg, absSmall⟩ := abs32_nonneg (noSmallest j inside)
    obtain ⟨nonneg, -, divides, others⟩ := @divisorLoop_spec cols row _ (j + 1)
      (cols - (j + 1)) noSmallest (by omega) absNonneg absSmall
    refine ⟨nonneg, fun col below => ?_⟩
    rcases Nat.lt_trichotomy col j with before | here | behind
    · rw [zeros col before]
      exact dvd_zero _
    · rw [here]
      exact divides.trans abs
    · exact others col (by omega) (by omega)

/-- The constant of a row that is divided is the quotient, rounded down. -/
theorem tighten_bound (positive : 0 < g) : (row.tighten cols g).bound = row.bound / g := by
  change (if row.bound > 0 ∨ row.bound.tmod g = 0 then row.bound.tdiv g
    else row.bound.tdiv g - 1) = _
  rw [Int.tdiv_eq_ediv, Int.sign_eq_one_of_pos positive]
  have divides : row.bound.tmod g = 0 ↔ g ∣ row.bound :=
    ⟨Int.dvd_of_tmod_eq_zero, Int.tmod_eq_zero_of_dvd⟩
  by_cases whole : g ∣ row.bound
  · rw [if_pos (.inr (divides.mpr whole)), if_pos (.inr whole), add_zero]
  · by_cases above : 0 < row.bound
    · rw [if_pos (.inl above), if_pos (.inl above.le), add_zero]
    · have nonzero : row.bound ≠ 0 := by
        intro zero
        rw [zero] at whole
        exact whole (dvd_zero _)
      have neither : ¬(row.bound > 0 ∨ row.bound.tmod g = 0) :=
        not_or.mpr ⟨above, fun zero => whole (divides.mp zero)⟩
      have negative : ¬(0 ≤ row.bound ∨ g ∣ row.bound) := not_or.mpr ⟨by omega, whole⟩
      rw [if_neg neither, if_neg negative, add_sub_cancel_right]

/-- Dividing a row and rounding its constant down keeps its integer points. -/
theorem tighten_holds (positive : 0 < g) (divides : ∀ col < cols, g ∣ row.coeff col) :
    (row.tighten cols g).Holds cols point ↔ row.Holds cols point := by
  have coeffs : ∀ col < cols, row.coeff col = g * (row.tighten cols g).coeff col := by
    intro col inside
    obtain ⟨quotient, isQuotient⟩ := divides col inside
    have exactly : (row.coeff col).tdiv g = quotient := by
      rw [isQuotient, Int.mul_tdiv_cancel_left _ positive.ne']
    have fits : Fits32 quotient := by
      have whole := row.fits col
      have low := whole.low
      have high := whole.high
      rw [isQuotient] at low high
      constructor
      · by_contra below
        nlinarith
      · by_contra above
        nlinarith
    have own : (row.tighten cols g).coeff col = int32 ((row.coeff col).tdiv g) := if_pos inside
    rw [own, exactly, fits.int32_eq, isQuotient]
  exact Inequality.holds_divided positive coeffs (tighten_bound positive)

theorem Row.gcdNormalize_holds (noSmallest : row.NoSmallest cols) :
    (row.gcdNormalize cols).Holds cols point ↔ row.Holds cols point := by
  obtain ⟨nonneg, divides⟩ := divisor_spec noSmallest
  unfold Row.gcdNormalize
  dsimp only
  split_ifs with normalizes
  · exact tighten_holds (by omega) divides
  · rfl

theorem Work.gcdNormalize_holds
    (noSmallest : ∀ index < work.rows, (work.row index).NoSmallest work.cols) :
    work.gcdNormalize.Holds point ↔ work.Holds point := by
  refine forall₂_congr fun index below => ?_
  change index < work.rows at below
  change (if index < work.rows then (work.row index).gcdNormalize work.cols
    else work.row index).Holds work.cols point ↔ _
  rw [if_pos below]
  exact Row.gcdNormalize_holds (noSmallest index below)

end Normalization

/-! ## The tests keep integer solutions -/

section Tests

variable {allow : Bool} {marks : Nat → Bool} {work : Work} {found : Svpc}
  {bounds : Bounds} {point : Nat → Int} {remaining i : Nat}

/-- The integer points of the work array are rational ones. -/
theorem holds_cast : work.Holds (fun col => (point col : ℚ)) ↔ work.Holds point :=
  forall₂_congr fun _ _ => Inequality.holds_intCast

/-- The projections and the last test keep an integer solution. -/
theorem fourier_sound (ordered : bounds.Ordered)
    (within : bounds.Holds work.cols point) (last : 0 < work.cols)
    (columns : i + remaining + 1 = work.cols) (zeroBelow : work.ZeroBelow i)
    (holds : work.Holds point) :
    fourier allow bounds remaining i work = true := by
  induction remaining generalizing i work with
  | zero =>
      refine (@oneVarConsistent_sound (work.cols - 1) work.cols bounds allow
        ((List.range work.rows).map work.row) point ordered (by omega)
        (fun row member => ?_) within).1
      obtain ⟨index, inside, rfl⟩ := List.mem_map.mp member
      have hold := holds index (List.mem_range.mp inside)
      unfold Inequality.Holds at hold
      rw [@Inequality.value_single _ _ _ (work.cols - 1) _ _ (by omega)
        fun other below apart =>
          zeroBelow index (List.mem_range.mp inside) other (by omega)] at hold
      exact hold
  | succ remaining ih =>
      unfold fourier
      split
      · rfl
      · rename_i after projected
        have never := Work.project_spec (K := ℚ) zeroBelow (le_refl _) (by omega) projected
        exact absurd (holds_cast.mpr holds) (never _)
      · rename_i after projected
        have spec := Work.project_spec (K := ℚ) zeroBelow (le_refl _) (by omega) projected
        rw [if_neg (by decide)] at spec
        obtain ⟨cols, zeroAfter, zero, holdsAfter⟩ := spec
        have kept : after.Holds point := by
          rw [← holds_cast, holdsAfter]
          refine ⟨point i, ?_⟩
          rw [Function.update_eq_self]
          exact holds_cast.mpr holds
        refine ih (by rw [cols]; exact within)
          (by rw [cols]; exact last) (by rw [cols]; omega) ?_ kept
        intro index below column before
        by_cases here : column = i
        · rw [here]
          exact zero index below
        · exact zeroAfter index below column (by omega)

end Tests

/-! ## The tests one after the other -/

/--
What the tests of the work array compute does not wrap: the products of the
acyclic test have 32 bits, and no coefficient that `Gcd_Normalize` takes the
absolute value of is the smallest one.
-/
structure WorkClear (allow : Bool) (marks : Nat → Bool) (work : Work) :
    Prop where
  products : ∀ found, svpc allow marks work = (.inapplicable, found) →
    ∀ turn, ReachedTurn allow (firstTurn work found) turn → TurnSets ProductFits allow turn
  smallest : ∀ found acyclic, svpc allow marks work = (.inapplicable, found) →
    acyclicTest allow work found = (.inapplicable, acyclic) →
      ∀ index < acyclic.work.rows,
        (acyclic.work.row index).NoSmallest acyclic.work.cols

/--
What `Sub_In_Equal` and the tests after it compute from the copied rows does
not wrap.
-/
structure SystemClear (allow : Bool) (marks : Nat → Bool) (system : System)
    (copied : Work) : Prop where
  equations : ∀ start, system.copyToWorkEq copied = some start →
    ∀ state, Reached start state → Clear state
  tests : ∀ turns work, system.subInEqual turns copied = some (.done work) →
    WorkClear allow marks work

section Stages

variable {allow : Bool} {marks : Nat → Bool} {work copied : Work}
  {system : System} {point : Nat → Int} {turns : Nat}

/-- A test that does not apply to all rows has columns. -/
theorem cols_pos_of_inapplicable {found : Svpc}
    (ran : svpc allow marks work = (.inapplicable, found)) : 0 < work.cols := by
  have spec := svpc_spec ran
  rw [if_neg (by decide)] at spec
  have notAll := spec.2.1
  by_contra empty
  have noColumns : work.cols = 0 := by omega
  have all : ∀ i < work.rows, (variablesOf work.cols (work.row i)).length ≤ 1 := by
    intro i _
    rw [noColumns]
    exact Nat.zero_le _
  cases notAll.mpr all

/-- The last turn of the acyclic test is reached. -/
theorem acyclicTest_last {found : Svpc} {result : TestResult}
    {acyclic : Acyclic} (tested : acyclicTest allow work found = (result, acyclic)) :
    ∃ turn, ReachedTurn allow (firstTurn work found) turn ∧
      acyclicTurn allow turn = .inl (result, acyclic) := by
  have ran : acyclicLoop allow (remaining (firstTurn work found) + 1)
      (firstTurn work found) = some (result, acyclic) := by
    rw [← tested]
    exact (Option.some_get _).symm
  exact acyclicLoop_last (.start rfl) ran

/-- A work array with an integer solution is not proved inconsistent. -/
theorem isConsistentWork_sound (clear : WorkClear allow marks work)
    (holds : work.Holds point) : isConsistentWork allow marks work = true := by
  unfold isConsistentWork
  split
  · rfl
  · rename_i found ran
    have spec := svpc_spec ran
    rw [if_pos rfl] at spec
    exact absurd holds (spec point)
  · rename_i found ran
    have spec := svpc_spec ran
    rw [if_neg (by decide)] at spec
    have fits := clear.products found ran
    split
    · rfl
    · rename_i acyclic tested
      obtain ⟨turn, reached, ended⟩ := acyclicTest_last tested
      exact absurd holds ((kept_of_reached spec.1 fits reached).inconsistent
        (fits turn reached) ended point)
    · rename_i acyclic tested
      obtain ⟨turn, reached, ended⟩ := acyclicTest_last tested
      have kept := kept_of_reached spec.1 fits reached
      have left : acyclic = turn.state := inapplicable_state ended
      have hold : acyclic.work.Holds point := by
        rw [left]
        exact kept.relaxes point holds
      have columns := cols_pos_of_inapplicable ran
      have cols : acyclic.work.cols = work.cols := by
        rw [left]
        exact kept.cols
      have tracks : Tracks acyclic.work (allRows acyclic.work) acyclic.isSvpc
          acyclic.bounds := by
        rw [left]
        exact kept.tracks
      refine fourier_sound tracks.ordered
        (tracks.sound point fun k below _ => hold k below) (cols ▸ columns) ?_
        (fun _ _ _ below => absurd below (Nat.not_lt_zero _)) ?_
      · change 0 + (acyclic.work.cols - 1) + 1 = acyclic.work.cols
        omega
      · exact (Work.gcdNormalize_holds (clear.smallest found acyclic ran tested)).mpr hold

/-- A copied system with an integer solution keeps one when its equations are
substituted, and is not proved inconsistent. -/
theorem subInEqual_sound
    (clear : ∀ start, system.copyToWorkEq copied = some start →
      ∀ state, Reached start state → Clear state)
    (agree : copied.cols = system.vars) (holds : copied.Holds point)
    (solves : ∀ row ∈ system.eq, row.Solves system.vars point)
    {outcome : Outcome}
    (ran : system.subInEqual turns copied = some outcome) :
    match outcome with
    | .failed => True
    | .inconsistent => False
    | .done work => ∃ image : Nat → Int, work.Holds image := by
  unfold System.subInEqual at ran
  split_ifs at ran with none'
  · cases ran
    exact ⟨point, holds⟩
  split at ran
  · cases ran
    exact ⟨point, holds⟩
  · rename_i start starts
    have isStart : start.eqs = system.eq.reverse ∧
        start.work.cols = system.vars ∧ (start.work.Holds point) := by
      unfold System.copyToWorkEq at starts
      split_ifs at starts with space empty vars
      · cases starts
        exact ⟨rfl, rfl, fun index below => by
          change index < copied.rows at below
          omega⟩
      · cases starts
        exact ⟨rfl, agree, holds⟩
    obtain ⟨eqs, cols, startHolds⟩ := isStart
    let restricted : Nat → Int :=
      fun col => if col < start.work.cols then point col else 0
    have values : ∀ row : Row, row.value start.work.cols restricted =
        row.value start.work.cols point := fun row =>
      Inequality.value_congr (fun _ _ => rfl) fun col inside _ => if_pos inside
    have member : restricted ∈ eqSolutions start { col | col < start.work.cols } := by
      refine ⟨fun col outside => if_neg outside, fun row isEq => ?_⟩
      rw [eqs] at isEq
      unfold Row.Solves
      rw [values, cols]
      exact solves row (List.mem_reverse.mp isEq)
    have holdsRestricted : start.work.Holds restricted := by
      intro index below
      unfold Inequality.Holds
      rw [values]
      exact startHolds index below
    have ended := subInEqualLoop_spec ran
    cases outcome with
    | failed => trivial
    | inconsistent =>
        obtain ⟨state, after, last, rest, reached, isLast, solved⟩ := ended
        obtain ⟨live, preserved, -⟩ := preserved_of_reached (clear start starts) reached
        obtain ⟨image, bijection, -⟩ := preserved.bijection
        refine not_solves_of_inconsistent (clear start starts state reached)
          isLast solved (image restricted)
          ((bijection.mapsTo member).2 last ?_)
        rw [isLast]
        exact List.mem_cons_self
    | done work =>
        have reached : Reached start ⟨work, []⟩ := ended
        obtain ⟨live, preserved, -⟩ := preserved_of_reached (clear start starts) reached
        obtain ⟨image, -, keeps⟩ := preserved.bijection
        exact ⟨image restricted, (keeps restricted member).1.mp holdsRestricted⟩

end Stages

/-! ## The solutions of a system -/

section Soundness

variable {allow : Bool} {marks : Nat → Bool} {work : Work} {system : System}
  {turns : Nat}

/-- The equation `x + y = 1` and the inequalities `x ≤ 0` and `-x ≤ -1`. -/
def crossedSystem : System where
  le := [bound 1 0 fits_one, bound (-1) (-1) fits_negOne]
  eq := [unitEquation]
  vars := 2

end Soundness

end OpenUH.Lno.SystemOfEquations
