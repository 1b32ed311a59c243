import OpenUH.Foundation.Transition
import OpenUH.Lno.SystemProjection

/-!
# Elimination of equations

`Sub_In_Equal` substitutes the equations of a system into its work array, the
last one first.  An equation with a coefficient of one is solved for that
variable; another is divided by the greatest common divisor of its
coefficients, or gets one more variable and one more equation by Pugh's
algorithm.
-/

namespace OpenUH.Lno.SystemOfEquations

open Foundation

/-- `SOE_MAX_WORK_ROWS_EQ`. -/
def maxWorkRowsEq : Nat := 100

/-! ## Operations on equations -/

namespace Row

/-- Negate the columns from `minvar` on, and the constant. -/
def negate (minvar cols : Nat) (row : Row) : Row where
  coeff col :=
    if minvar ≤ col ∧ col < cols then int32 (-row.coeff col) else row.coeff col
  bound := -row.bound
  fits := by
    intro col
    split
    · exact fits_int32 _
    · exact row.fits col

/-- Divide the columns from `minvar` on, and the constant. -/
def divide (g : Int) (minvar cols : Nat) (row : Row) : Row where
  coeff col :=
    if minvar ≤ col ∧ col < cols then
      int32 ((row.coeff col).tdiv g)
    else
      row.coeff col
  bound := row.bound.tdiv g
  fits := by
    intro col
    split
    · exact fits_int32 _
    · exact row.fits col

/-- The first column that is not zero. -/
def firstNonZero (cols : Nat) (row : Row) : Option Nat :=
  (List.range cols).find? (row.coeff · ≠ 0)

end Row

/-- What is known of the columns that were looked at. -/
structure Search where
  g : Int
  smallest : Int
  smallest_pos : Nat

/-- Look at one more column. -/
def searchColumn (row : Row) (found : Search) (col : Nat) : Search :=
  let tmp := abs32 (row.coeff col)
  if tmp ≠ 0 then
    let g := gcd found.g tmp
    if tmp < found.smallest then ⟨g, tmp, col⟩
    else ⟨g, found.smallest, found.smallest_pos⟩
  else
    found

/-- The greatest common divisor, and the smallest coefficient. -/
def searchColumns (cols minvar : Nat) (row : Row) : Search :=
  (List.range' (minvar + 1) (cols - (minvar + 1))).foldl (searchColumn row)
    ⟨abs32 (row.coeff minvar), abs32 (row.coeff minvar), minvar⟩

/--
`Normalize_Eq_and_Find_Smallest`: nothing where the constant is not a multiple
of the divisor of the coefficients.
-/
def normalize (cols minvar : Nat) (row : Row) : Option (Row × Nat) :=
  let found := searchColumns cols minvar row
  if |row.bound|.tmod found.g ≠ 0 then
    none
  else
    some (row.divide found.g minvar cols, found.smallest_pos)

/-- `Mod_Hat`. -/
def modHat (a b : Int) : Int :=
  let num := int32 (2 * a + b)
  let den := int32 (2 * b)
  let floor :=
    if num ≥ 0 ∧ den > 0 ∨ num ≤ 0 ∧ den < 0 then num.tdiv den
    else if num.tmod den = 0 then num.tdiv den
    else num.tdiv den - 1
  int32 (a - b * floor)

/-! ## Substitution -/

/-- The new coefficient of a row; only the last product may be cut off. -/
def subCoeff (product : Int → Int) (mult own other : Int) : Int :=
  if mult = 1 then own - other
  else if mult = -1 then own + other
  else own - product (mult * other)

/-- The new coefficients fit in 32 bits. -/
abbrev SubSmall (product : Int → Int) (i minvar cols : Nat) (pivot row : Row) : Prop :=
  ∀ col < cols, minvar ≤ col →
    |subCoeff product (row.coeff i) (row.coeff col) (pivot.coeff col)| ≤ int32Max

/-- Substitute an equation for a variable in a row; nothing on overflow. -/
def subRow (product : Int → Int) (i minvar cols : Nat) (pivot row : Row) : Option Row :=
  if row.coeff i = 0 then
    some row
  else if small : SubSmall product i minvar cols pivot row then
    some
      { coeff := fun col =>
          if col = i then 0
          else if minvar ≤ col ∧ col < cols then
            subCoeff product (row.coeff i) (row.coeff col) (pivot.coeff col)
          else row.coeff col
        bound := row.bound - row.coeff i * pivot.bound
        fits := by
          intro col
          split
          · exact fits_zero
          · split
            · rename_i inside
              exact fits_of_abs (small col inside.2 inside.1)
            · exact row.fits col }
  else
    none

/-- The work array, and the equations with the last one first. -/
structure State where
  work : Work
  eqs : List Row

/-- Substitute in the other equations; the products have 64 bits. -/
def subEqs (i minvar cols : Nat) (pivot : Row) : List Row → Option (List Row)
  | [] => some []
  | row :: rest =>
      match subRow id i minvar cols pivot row, subEqs i minvar cols pivot rest with
      | some row, some rest => some (row :: rest)
      | _, _ => none

/-- Substitute in the inequalities; the products have 32 bits. -/
def subLes (i minvar : Nat) (pivot : Row) (work : Work) : Option Work :=
  let substituted := fun le =>
    subRow int32 i minvar work.cols pivot (work.row le)
  if ∀ le < work.rows, (substituted le).isSome then
    some { work with row := fun le => (substituted le).getD (work.row le) }
  else
    none

/-- The last equation with a coefficient of one. -/
def orient (i minvar cols : Nat) (last : Row) : Row :=
  if last.coeff i = -1 then last.negate minvar cols else last

/-- `Sub_Last_Equal_Unary`, and the equations without the last one. -/
def subUnary (i minvar : Nat) (last : Row) (rest : List Row) (work : Work) : Option State :=
  let pivot := orient i minvar work.cols last
  match subEqs i minvar work.cols pivot rest, subLes i minvar pivot work with
  | some eqs, some work => some { work := work, eqs := eqs }
  | _, _ => none

/-! ## The last equation -/

/-- What there is to do with an equation. -/
inductive Pivot where
  | noVariables
  | unary (last : Row) (i minvar : Nat)
  | indivisible
  | modulus (last : Row) (smallest : Nat)

/-- The first part of `Sub_Last_Equal`. -/
def findPivot (cols : Nat) (last : Row) : Pivot :=
  match last.firstNonZero cols with
  | none => .noVariables
  | some i =>
      if abs32 (last.coeff i) = 1 then
        .unary last i i
      else
        match normalize cols i last with
        | none => .indivisible
        | some (last, smallest) =>
            if abs32 (last.coeff smallest) = 1 then .unary last smallest i
            else .modulus last smallest

/-- `Add_Work_Var`, with its return value. -/
def addWorkVar (state : State) : State × Bool :=
  let cols := state.work.cols
  if cols ≥ maxWorkCols then
    (state, false)
  else
    ({ work :=
        { row := fun i =>
            if i < state.work.rows then
              (state.work.row i).zeroColumns cols (cols + 1)
            else
              state.work.row i
          rows := state.work.rows
          cols := cols + 1 }
       eqs := state.eqs.map (Row.zeroColumns cols (cols + 1)) }, true)

/-- The equation for the new variable, in the last column. -/
def modulusRow (cols : Nat) (last : Row) (m : Int) : Row where
  coeff i :=
    if i = cols - 1 then int32 m
    else if i < cols - 1 then int32 (-modHat (last.coeff i) m)
    else 0
  bound := int32 (-modHat (int32 last.bound) m)
  fits := by
    intro i
    split
    · exact fits_int32 _
    · split
      · exact fits_int32 _
      · exact fits_zero

/-- Pugh's extra variable and equation; no use is made of the return value. -/
def addModulus (last : Row) (smallest : Nat) (rest : List Row) (work : Work) : State :=
  let added := (addWorkVar { work := work, eqs := last :: rest }).1
  let m := int32 (abs32 (last.coeff smallest) + 1)
  { added with
    eqs := modulusRow added.work.cols (added.eqs.headD last) m :: added.eqs }

/--
`Sub_Last_Equal`: nothing where it fails, else the state, and whether the
system is proved inconsistent.
-/
def subLastEqual (last : Row) (rest : List Row) (work : Work) : Option (State × Bool) :=
  match findPivot work.cols last with
  | .noVariables => some ({ work := work, eqs := rest }, last.bound ≠ 0)
  | .unary last i minvar =>
      (subUnary i minvar last rest work).map fun state => (state, false)
  | .indivisible => some ({ work := work, eqs := last :: rest }, true)
  | .modulus last smallest => some (addModulus last smallest rest work, false)

/-! ## All equations -/

/-- What `Sub_In_Equal` returns. -/
inductive Outcome where
  | failed
  | inconsistent
  | done (work : Work)

/-- The loop of `Sub_In_Equal`; nothing where it needs more turns. -/
def subInEqualLoop : Nat → State → Option Outcome
  | 0, state =>
      match state.eqs with
      | [] => some (.done state.work)
      | _ :: _ => none
  | turns + 1, state =>
      match state.eqs with
      | [] => some (.done state.work)
      | last :: rest =>
          match subLastEqual last rest state.work with
          | none => some .failed
          | some (_, true) => some .inconsistent
          | some (state, false) => subInEqualLoop turns state

/--
`Copy_To_Work_Eq`: nothing where there is not enough space.  A work array with
rows has as many columns as the system has variables.
-/
def System.copyToWorkEq (system : System) (work : Work) : Option State :=
  if system.eq.length > maxWorkRowsEq then
    none
  else if work.rows = 0 then
    if system.vars > maxWorkCols then
      none
    else
      some { work := { work with cols := system.vars }, eqs := system.eq.reverse }
  else
    some { work := work, eqs := system.eq.reverse }

/-- `Sub_In_Equal`. -/
def System.subInEqual (turns : Nat) (system : System) (work : Work) : Option Outcome :=
  if system.eq.length = 0 then
    some (.done work)
  else
    match system.copyToWorkEq work with
    | none => some (.done work)
    | some state => subInEqualLoop turns state

/-- One turn of the loop. -/
def Step (before after : State) : Prop :=
  ∃ last rest, before.eqs = last :: rest ∧ subLastEqual last rest before.work = some (after, false)

/-- The states at the head of the loop. -/
abbrev Reached (start : State) : State → Prop :=
  Transition.Reachable (· = start) Step

/-! ## The size of the work space -/

/-- The last equation calls for one more variable. -/
def NeedsVariable (state : State) : Prop :=
  ∃ last rest pivot smallest, state.eqs = last :: rest ∧
    findPivot state.work.cols last = .modulus pivot smallest

/-- The columns and the equations are within the arrays. -/
structure InBounds (state : State) : Prop where
  cols : state.work.cols ≤ maxWorkCols
  eqs : state.eqs.length ≤ maxWorkRowsEq

/-- There is no room for one more variable and equation. -/
def Full (state : State) : Prop :=
  state.work.cols = maxWorkCols ∨ state.eqs.length = maxWorkRowsEq

/--
The loop ends, its states are within the arrays, and it returns where it runs
out of columns or rows.
-/
structure WithinWorkSpace (start : State) : Prop where
  ends : ∃ turns outcome, subInEqualLoop turns start = some outcome
  inBounds : ∀ state, Reached start state → InBounds state
  returns : ∀ state last rest, Reached start state →
    state.eqs = last :: rest → NeedsVariable state → Full state →
      subLastEqual last rest state.work = none

section Sizes

variable {i minvar smallest : Nat} {last : Row} {rest : List Row}
  {work : Work} {before after state start : State}

theorem subEqs_length {cols : Nat} {pivot : Row} {eqs : List Row}
    (solved : subEqs i minvar cols pivot rest = some eqs) :
    eqs.length = rest.length := by
  induction rest generalizing eqs with
  | nil =>
      cases solved
      rfl
  | cons row rest ih =>
      unfold subEqs at solved
      split at solved
      · rename_i first others isFirst isOthers
        cases solved
        rw [List.length_cons, List.length_cons, ih isOthers]
      · cases solved

theorem subLes_cols {pivot : Row} {after : Work}
    (solved : subLes i minvar pivot work = some after) :
    after.cols = work.cols := by
  unfold subLes at solved
  dsimp only at solved
  split at solved
  · cases solved
    rfl
  · cases solved

theorem subUnary_sizes (solved : subUnary i minvar last rest work = some after) :
    after.work.cols = work.cols ∧ after.eqs.length = rest.length := by
  unfold subUnary at solved
  dsimp only at solved
  split at solved
  · rename_i eqs les isEqs isLes
    cases solved
    exact ⟨subLes_cols isLes, subEqs_length isEqs⟩
  · cases solved

theorem addModulus_sizes (room : work.cols < maxWorkCols) :
    (addModulus last smallest rest work).work.cols = work.cols + 1 ∧
      (addModulus last smallest rest work).eqs.length = rest.length + 2 := by
  unfold addModulus addWorkVar
  dsimp only
  rw [if_neg (not_le.mpr room)]
  exact ⟨rfl, by simp⟩

/-- One turn takes an equation away, or adds a variable and an equation. -/
theorem step_sizes (moved : Step before after)
    (room : NeedsVariable before → before.work.cols < maxWorkCols) :
    (after.work.cols = before.work.cols ∧
        after.eqs.length + 1 = before.eqs.length) ∨
      (NeedsVariable before ∧ after.work.cols = before.work.cols + 1 ∧
        after.eqs.length = before.eqs.length + 1) := by
  obtain ⟨last, rest, eqs, solved⟩ := moved
  rw [eqs, List.length_cons]
  unfold subLastEqual at solved
  split at solved
  · obtain ⟨rfl, -⟩ := Prod.mk.inj (Option.some.inj solved)
    exact .inl ⟨rfl, rfl⟩
  · rename_i pivot i minvar found
    obtain ⟨other, isOther, pair⟩ := Option.map_eq_some_iff.mp solved
    cases pair
    obtain ⟨cols, length⟩ := subUnary_sizes isOther
    exact .inl ⟨cols, by omega⟩
  · cases solved
  · rename_i pivot smallest found
    cases solved
    have needs : NeedsVariable before := ⟨last, rest, pivot, smallest, eqs, found⟩
    obtain ⟨cols, length⟩ := addModulus_sizes (room needs)
    exact .inr ⟨needs, cols, by omega⟩

/-- A single equation that needs no variable takes one turn. -/
theorem eqs_nil_of_reached (single : start.eqs.length = 1)
    (solvable : ¬NeedsVariable start) (reached : Reached start state) :
    state = start ∨ state.eqs = [] := by
  induction reached with
  | start isStart => exact .inl isStart
  | tail reached moved ih =>
      rcases ih with rfl | empty
      · rcases step_sizes moved (fun needs => absurd needs solvable) with
          ⟨-, fewer⟩ | ⟨needs, -⟩
        · exact .inr (List.eq_nil_of_length_eq_zero (by omega))
        · exact absurd needs solvable
      · obtain ⟨last, rest, eqs, -⟩ := moved
        rw [empty] at eqs
        cases eqs

/-- A turn that needs a variable never fails. -/
theorem subLastEqual_ne_none {state : State} (eqs : state.eqs = last :: rest)
    (needs : NeedsVariable state) :
    subLastEqual last rest state.work ≠ none := by
  obtain ⟨other, others, pivot, smallest, same, found⟩ := needs
  obtain ⟨rfl, rfl⟩ := List.cons.inj (eqs.symm.trans same)
  unfold subLastEqual
  rw [found]
  exact Option.some_ne_none _

/-- A run may start with one more step. -/
theorem reached_of_step (moved : Step start after)
    (reached : Reached after state) : Reached start state := by
  induction reached with
  | start isAfter => exact isAfter ▸ .tail (.start rfl) moved
  | tail _ step ih => exact .tail ih step

/-- While there is room, each turn lowers twice the columns plus equations
that are left. -/
theorem ends_of_room {start : State} (cols : start.work.cols ≤ maxWorkCols)
    (room : ∀ state, Reached start state → NeedsVariable state → state.work.cols < maxWorkCols) :
    ∃ turns outcome, subInEqualLoop turns start = some outcome := by
  induction size : 2 * (maxWorkCols - start.work.cols) + start.eqs.length
    using Nat.strong_induction_on generalizing start with
  | _ bound ih =>
      cases eqs : start.eqs with
      | nil =>
          refine ⟨0, .done start.work, ?_⟩
          unfold subInEqualLoop
          rw [eqs]
      | cons last rest =>
          cases solved : subLastEqual last rest start.work with
          | none =>
              refine ⟨1, .failed, ?_⟩
              unfold subInEqualLoop
              rw [eqs]
              dsimp only
              rw [solved]
          | some result =>
              obtain ⟨after, inconsistent⟩ := result
              cases inconsistent with
              | true =>
                  refine ⟨1, .inconsistent, ?_⟩
                  unfold subInEqualLoop
                  rw [eqs]
                  dsimp only
                  rw [solved]
              | false =>
                  have moved : Step start after := ⟨last, rest, eqs, solved⟩
                  have start_room := room start (.start rfl)
                  have sizes := step_sizes moved start_room
                  have lower : after.work.cols ≤ maxWorkCols ∧
                      2 * (maxWorkCols - after.work.cols) + after.eqs.length < bound := by
                    rw [eqs] at sizes size
                    rcases sizes with ⟨sameCols, fewer⟩ | ⟨needs, more, longer⟩
                    · omega
                    · have space := start_room needs
                      omega
                  obtain ⟨turns, outcome, ran⟩ := ih _ lower.2 lower.1 (fun state reached =>
                      room state (reached_of_step moved reached)) rfl
                  refine ⟨turns + 1, outcome, ?_⟩
                  unfold subInEqualLoop
                  rw [eqs]
                  dsimp only
                  rw [solved]
                  exact ran

end Sizes

/-- Whether an equation calls for one more variable. -/
def Pivot.isModulus : Pivot → Bool
  | .modulus _ _ => true
  | _ => false

theorem needsVariable_iff {last : Row} {rest : List Row} {work : Work} :
    NeedsVariable ⟨work, last :: rest⟩ ↔ (findPivot work.cols last).isModulus = true := by
  constructor
  · rintro ⟨other, others, pivot, smallest, same, found⟩
    obtain ⟨rfl, rfl⟩ := List.cons.inj same
    rw [found]
    rfl
  · intro isModulus
    cases found : findPivot work.cols last with
    | modulus pivot smallest =>
        exact ⟨last, rest, pivot, smallest, rfl, found⟩
    | noVariables | unary | indivisible =>
        rw [found] at isModulus
        cases isModulus

/-- The equation `first x + second y = 1`. -/
def pair (first second : Int) (fits1 : Fits32 first) (fits2 : Fits32 second) :
    Row where
  coeff col := if col = 0 then first else if col = 1 then second else 0
  bound := 1
  fits := fits_both first second fits1 fits2

/-- No rows, in some number of columns. -/
def noRows (cols : Nat) : Work where
  row _ := Row.null
  rows := 0
  cols := cols

/-- The equation `x + y = 1` is solved for `x`. -/
def unitEquation : Row := pair 1 1 ⟨by decide, by decide⟩ ⟨by decide, by decide⟩

/-- The equation `2 x + 3 y = 1` needs one more variable. -/
def modulusEquation : Row :=
  pair 2 3 fits_two fits_three

end OpenUH.Lno.SystemOfEquations
