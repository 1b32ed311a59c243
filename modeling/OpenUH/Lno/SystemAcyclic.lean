import Mathlib.Tactic.IntervalCases
import OpenUH.Foundation.Transition
import OpenUH.Lno.SystemBounds

/-!
# The acyclic test

`Acyclic_Test` looks for variables that the rows with several variables bound
from one side only, and sets them to their best value: rows lose the variable,
and give new bounds when a single one is left.
-/

namespace OpenUH.Lno.SystemOfEquations

open Foundation
open Function (update_eq_self update_of_ne update_self)

/-! ## The routines -/

/-- The work array with the bounds and marks, and the variables that are
substituted. -/
structure Acyclic where
  work : Work
  bounds : Bounds
  isSvpc : Nat → Bool
  substituted : Nat → Bool

/-- The loop over the rows of `Var_Leaf`. -/
def varLeafLoop (state : Acyclic) (i : Nat) : List Nat → Int → Option Int
  | [], s => some s
  | row :: rows, s =>
      if state.isSvpc row then
        varLeafLoop state i rows s
      else if (state.work.row row).coeff i > 0 then
        if s = -1 then none else varLeafLoop state i rows 1
      else if (state.work.row row).coeff i < 0 then
        if s = 1 then none else varLeafLoop state i rows (-1)
      else
        varLeafLoop state i rows s

/-- `Var_Leaf`: the sign, if the variable is a leaf. -/
def varLeaf (state : Acyclic) (i : Nat) : Option Int :=
  varLeafLoop state i (List.range state.work.rows) 0

/-- A row that can always be satisfied. -/
def clearRow (cols : Nat) (row : Row) : Row where
  coeff j := if j < cols then 0 else row.coeff j
  bound := 0
  fits := by
    intro j
    split
    · exact fits_zero
    · exact row.fits j

/-- Set a variable in a row; the product has 32 bits. -/
def setVarRow (i : Nat) (v : Int) (row : Row) : Row where
  coeff j := if j = i then 0 else row.coeff j
  bound :=
    if row.coeff i = 1 then row.bound - v
    else if row.coeff i = -1 then row.bound + v
    else row.bound - int32 (row.coeff i * v)
  fits := by
    intro j
    split
    · exact fits_zero
    · exact row.fits j

/-- One row of `Acy_Set_Var`, and whether the system is inconsistent. -/
def acySetRow (allow : Bool) (i : Nat) (val : Int) (row : Nat) (state : Acyclic) : Acyclic × Bool :=
  if state.isSvpc row ∨ (state.work.row row).coeff i = 0 then
    (state, false)
  else if val = infinite ∨ val = negInfinite then
    ({ state with
        work := state.work.setRow row
          (clearRow state.work.cols (state.work.row row))
        isSvpc := Function.update state.isSvpc row true }, false)
  else
    let new := setVarRow i val (state.work.row row)
    let state := { state with work := state.work.setRow row new }
    match variablesOf state.work.cols new with
    | [var_pos] =>
        match oneVarConsistent allow var_pos [new] state.bounds with
        | (false, bounds) => ({ state with bounds := bounds }, true)
        | (true, bounds) =>
            ({ state with
                bounds := bounds
                isSvpc := Function.update state.isSvpc row true }, false)
    | _ => (state, false)

/-- `Acy_Set_Var`, for a list of rows. -/
def acySetVar (allow : Bool) (i : Nat) (val : Int) :
    List Nat → Acyclic → Acyclic × Bool
  | [], state => (state, false)
  | row :: rows, state =>
      match acySetRow allow i val row state with
      | (state, true) => (state, true)
      | (state, false) => acySetVar allow i val rows state

/-- `var_substituted[i] = TRUE`. -/
def Acyclic.substitute (state : Acyclic) (i : Nat) : Acyclic :=
  { state with substituted := Function.update state.substituted i true }

@[simp] theorem Acyclic.substitute_work (state : Acyclic) (i : Nat) :
    (state.substitute i).work = state.work := rfl

/-- A point of `Acyclic_Test`: before the variable `i` is checked. -/
structure Turn where
  state : Acyclic
  i : Nat
  subbedOne : Bool
  failedOne : Bool

/-- The value that a leaf is set to. -/
def leafValue (state : Acyclic) (i : Nat) (sign : Int) : Int :=
  if sign > 0 then state.bounds.lower i else state.bounds.upper i

/-- Check one variable, or end a pass over the variables. -/
def acyclicTurn (allow : Bool) (turn : Turn) : (TestResult × Acyclic) ⊕ Turn :=
  let state := turn.state
  let i := turn.i
  if i < state.work.cols then
    if state.substituted i then
      .inr { turn with i := i + 1 }
    else
      match varLeaf state i with
      | none => .inr { turn with i := i + 1, failedOne := true }
      | some sign =>
          let state := state.substitute i
          if sign = 0 then
            .inr { turn with state := state, i := i + 1 }
          else
            match acySetVar allow i (leafValue state i sign)
              (List.range state.work.rows) state with
            | (state, true) => .inl (.inconsistent, state)
            | (state, false) =>
                .inr { turn with state := state, i := i + 1, subbedOne := true }
  else if turn.subbedOne ∧ turn.failedOne then
    .inr { state := state, i := 0, subbedOne := false, failedOne := false }
  else if turn.failedOne then
    .inl (.inapplicable, state)
  else
    .inl (.consistent, state)

/-- The loops of `Acyclic_Test`; nothing where they need more turns. -/
def acyclicLoop (allow : Bool) : Nat → Turn → Option (TestResult × Acyclic)
  | 0, _ => none
  | turns + 1, turn =>
      match acyclicTurn allow turn with
      | .inl result => some result
      | .inr turn => acyclicLoop allow turns turn

/-- The first turn, with the bounds and marks of `SVPC`. -/
def firstTurn (work : Work) (found : Svpc) : Turn where
  state :=
    { work := work
      bounds := found.bounds
      isSvpc := found.isSvpc
      substituted := fun _ => false }
  i := 0
  subbedOne := false
  failedOne := false

/-- The turns that a test comes to. -/
abbrev ReachedTurn (allow : Bool) (first : Turn) : Turn → Prop :=
  Transition.Reachable (· = first) fun before after =>
    acyclicTurn allow before = .inr after

/-! ## Conditions on the rows that are set -/

/-- A property of each row that `Acy_Set_Var` comes to. -/
def AllSets (property : Acyclic → Nat → Prop) (allow : Bool) (i : Nat)
    (val : Int) : List Nat → Acyclic → Prop
  | [], _ => True
  | row :: rows, state =>
      property state row ∧
        ((acySetRow allow i val row state).2 = false →
          AllSets property allow i val rows (acySetRow allow i val row state).1)

/-- The row is set, and not deleted. -/
def SetsRow (i : Nat) (val : Int) (state : Acyclic) (row : Nat) : Prop :=
  state.isSvpc row = false ∧ (state.work.row row).coeff i ≠ 0 ∧ val ≠ infinite ∧ val ≠ negInfinite

/-- The product that a row is set by fits in 32 bits. -/
def ProductFits (i : Nat) (val : Int) (state : Acyclic) (row : Nat) : Prop :=
  SetsRow i val state row → (state.work.row row).coeff i ≠ 1 →
    (state.work.row row).coeff i ≠ -1 → Fits32 ((state.work.row row).coeff i * val)

/-- The guards stay off where a row with a single variable is left. -/
def GuardHolds (i : Nat) (val : Int) (state : Acyclic) (row : Nat) : Prop :=
  SetsRow i val state row → ∀ var,
    variablesOf state.work.cols (setVarRow i val (state.work.row row)) =
      [var] → ¬GuardsOff (setVarRow i val (state.work.row row)).bound

/-- A property of the rows that are set in a turn. -/
def TurnSets (property : Nat → Int → Acyclic → Nat → Prop) (allow : Bool) (turn : Turn) : Prop :=
  ∀ sign, turn.i < turn.state.work.cols →
    turn.state.substituted turn.i = false →
      varLeaf turn.state turn.i = some sign → sign ≠ 0 →
        AllSets (property turn.i (leafValue turn.state turn.i sign)) allow
          turn.i (leafValue turn.state turn.i sign)
          (List.range turn.state.work.rows)
          (turn.state.substitute turn.i)

/-! ## Leaves -/

section Leaves

variable {allow : Bool} {state : Acyclic} {i row : Nat} {rows : List Nat}
  {sign s val : Int} {point : Nat → Int}

/-- The rows with several variables bound a leaf from one side. -/
structure Leaf (state : Acyclic) (i : Nat) (sign : Int) (rows : List Nat) :
    Prop where
  unit : sign = 1 ∨ sign = -1 ∨ sign = 0
  directed : ∀ row ∈ rows, state.isSvpc row = false → 0 ≤ sign * (state.work.row row).coeff i
  unused : sign = 0 → ∀ row ∈ rows, state.isSvpc row = false → (state.work.row row).coeff i = 0

theorem varLeafLoop_spec (unit : s = 1 ∨ s = -1 ∨ s = 0)
    (found : varLeafLoop state i rows s = some sign) :
    Leaf state i sign rows ∧ (s ≠ 0 → sign = s) := by
  induction rows generalizing s with
  | nil =>
      cases found
      exact ⟨⟨unit, nofun, nofun⟩, fun _ => rfl⟩
  | cons row rows ih =>
      unfold varLeafLoop at found
      split_ifs at found with marked positive other negative other
      · obtain ⟨leaf, keeps⟩ := ih unit found
        refine ⟨⟨leaf.unit, List.forall_mem_cons.mpr ⟨fun unmarked => ?_,
          leaf.directed⟩, fun zero => List.forall_mem_cons.mpr
            ⟨fun unmarked => ?_, leaf.unused zero⟩⟩, keeps⟩
        · rw [marked] at unmarked
          cases unmarked
        · rw [marked] at unmarked
          cases unmarked
      · obtain ⟨leaf, keeps⟩ := ih (.inl rfl) found
        have isOne := keeps (by decide)
        refine ⟨⟨leaf.unit, List.forall_mem_cons.mpr ⟨fun _ => ?_,
          leaf.directed⟩, fun zero => ?_⟩, fun nonzero => ?_⟩
        · rw [isOne, one_mul]
          exact positive.le
        · omega
        · omega
      · obtain ⟨leaf, keeps⟩ := ih (.inr (.inl rfl)) found
        have isOne := keeps (by decide)
        refine ⟨⟨leaf.unit, List.forall_mem_cons.mpr ⟨fun _ => ?_,
          leaf.directed⟩, fun zero => ?_⟩, fun nonzero => ?_⟩
        · rw [isOne]
          omega
        · omega
        · omega
      · obtain ⟨leaf, keeps⟩ := ih unit found
        have zeroCoeff : (state.work.row row).coeff i = 0 := by omega
        refine ⟨⟨leaf.unit, List.forall_mem_cons.mpr ⟨fun _ => ?_,
          leaf.directed⟩, fun zero => List.forall_mem_cons.mpr
            ⟨fun _ => zeroCoeff, leaf.unused zero⟩⟩, keeps⟩
        rw [zeroCoeff, mul_zero]

theorem varLeaf_spec (found : varLeaf state i = some sign) :
    Leaf state i sign (List.range state.work.rows) :=
  (varLeafLoop_spec (.inr (.inr rfl)) found).1

end Leaves

/-! ## Rows that are set -/

section Rows

variable {allow inconsistent : Bool} {state after : Acyclic} {cols i k : Nat}
  {row : Row} {sign v val : Int} {point : Nat → Int}

/-- A value of the variable that is no better than the one it is set to. -/
def Worse (sign val value : Int) : Prop :=
  0 ≤ sign * (value - val)

/-- The row without the variable. -/
theorem setVarRow_value (inside : i < cols) :
    (setVarRow i v row).value cols point = row.value cols point - row.coeff i * point i := by
  have member : i ∈ Finset.range cols := Finset.mem_range.mpr inside
  rw [Inequality.value_eq_sum, Inequality.value_eq_sum,
    ← Finset.add_sum_erase _ _ member, ← Finset.add_sum_erase _ _ member]
  have own : (setVarRow i v row).coeff i = 0 := if_pos rfl
  simp only [Int.cast_id]
  have others : ∀ j ∈ (Finset.range cols).erase i,
      (setVarRow i v row).coeff j * point j = row.coeff j * point j := by
    intro j away
    have kept : (setVarRow i v row).coeff j = row.coeff j := if_neg (Finset.ne_of_mem_erase away)
    rw [kept]
  rw [own, Finset.sum_congr rfl others]
  ring

/-- The constant, where the product fits. -/
theorem setVarRow_bound (fits : row.coeff i ≠ 1 → row.coeff i ≠ -1 → Fits32 (row.coeff i * v)) :
    (setVarRow i v row).bound = row.bound - row.coeff i * v := by
  unfold setVarRow
  dsimp only
  split_ifs with one negative
  · rw [one, one_mul]
  · rw [negative]
    ring
  · rw [(fits one negative).int32_eq]

/-- A row that is set holds where the row does, at values that are no better. -/
theorem setVarRow_holds (inside : i < cols) (unit : sign = 1 ∨ sign = -1)
    (directed : 0 ≤ sign * row.coeff i)
    (fits : row.coeff i ≠ 1 → row.coeff i ≠ -1 → Fits32 (row.coeff i * v))
    (worse : Worse sign v (point i)) (holds : row.Holds cols point) :
    (setVarRow i v row).Holds cols point := by
  have gain : 0 ≤ row.coeff i * (point i - v) := by
    have product : 0 ≤ sign * row.coeff i * (sign * (point i - v)) := mul_nonneg directed worse
    have square : sign * sign = 1 := by
      rcases unit with rfl | rfl <;> rfl
    calc (0 : Int) ≤ sign * row.coeff i * (sign * (point i - v)) := product
      _ = sign * sign * (row.coeff i * (point i - v)) := by ring
      _ = row.coeff i * (point i - v) := by rw [square, one_mul]
  unfold Inequality.Holds at holds ⊢
  rw [setVarRow_value inside, setVarRow_bound fits]
  push_cast at holds ⊢
  linarith

/-- At the value itself the row that is set says the same. -/
theorem setVarRow_holds_iff (inside : i < cols)
    (fits : row.coeff i ≠ 1 → row.coeff i ≠ -1 → Fits32 (row.coeff i * v)) (same : point i = v) :
    (setVarRow i v row).Holds cols point ↔ row.Holds cols point := by
  unfold Inequality.Holds
  rw [setVarRow_value inside, setVarRow_bound fits, same]
  push_cast
  exact sub_le_sub_iff_right _

theorem variablesOf_setVarRow :
    variablesOf cols (setVarRow i v row) = (variablesOf cols row).filter (· ≠ i) := by
  unfold variablesOf
  rw [List.filter_filter]
  refine List.filter_congr fun j _ => ?_
  unfold setVarRow
  dsimp only
  by_cases here : j = i
  · simp [here]
  · simp [here]

/-- Setting a variable takes at most one from a row. -/
theorem length_variablesOf_setVarRow :
    (variablesOf cols row).length ≤ (variablesOf cols (setVarRow i v row)).length + 1 := by
  have unique : (variablesOf cols row).Nodup := (List.nodup_range).filter _
  rw [variablesOf_setVarRow]
  have split := List.length_eq_length_filter_add (l := variablesOf cols row)
    (fun j => decide (j ≠ i))
  have few : ((variablesOf cols row).filter fun j => !decide (j ≠ i)).length ≤ 1 := by
    have same : (variablesOf cols row).filter (fun j => !decide (j ≠ i)) =
        (variablesOf cols row).filter (fun j => j == i) := by
      refine List.filter_congr fun j _ => ?_
      simp [beq_eq_decide]
    rw [same, ← List.countP_eq_length_filter]
    exact List.nodup_iff_count_le_one.mp unique i
  omega

theorem variablesOf_clearRow : variablesOf cols (clearRow cols row) = [] := by
  unfold variablesOf
  rw [List.filter_eq_nil_iff]
  intro j member
  have below := List.mem_range.mp member
  unfold clearRow
  simp [below]

/-- The set of all rows. -/
abbrev allRows (work : Work) : Set Nat := { k | k < work.rows }

/-- What setting a variable in rows leaves as it was. -/
structure Reduces (i : Nat) (before after : Acyclic) : Prop where
  cols : after.work.cols = before.work.cols
  rows : after.work.rows = before.work.rows
  substituted : after.substituted = before.substituted
  lower : after.bounds.lower i = before.bounds.lower i
  upper : after.bounds.upper i = before.bounds.upper i
  marked : ∀ k, before.isSvpc k = true → after.isSvpc k = true
  zero : ∀ k, after.isSvpc k = false → ∀ j,
    (before.work.row k).coeff j = 0 → (after.work.row k).coeff j = 0
  directed : ∀ k, after.isSvpc k = false →
    (after.work.row k).coeff i = (before.work.row k).coeff i ∨ (after.work.row k).coeff i = 0

theorem Reduces.refl (i : Nat) (state : Acyclic) : Reduces i state state :=
  ⟨rfl, rfl, rfl, rfl, rfl, fun _ marked => marked, fun _ _ _ zero => zero,
    fun _ _ => .inl rfl⟩

theorem Reduces.trans {first second third : Acyclic}
    (left : Reduces i first second) (right : Reduces i second third) :
    Reduces i first third := by
  have unmarked : ∀ k, third.isSvpc k = false → second.isSvpc k = false := by
    intro k isUnmarked
    by_contra isMarked
    rw [right.marked k (Bool.eq_true_of_not_eq_false isMarked)] at isUnmarked
    cases isUnmarked
  refine ⟨right.cols.trans left.cols, right.rows.trans left.rows,
    right.substituted.trans left.substituted, right.lower.trans left.lower,
    right.upper.trans left.upper,
    fun k marked => right.marked k (left.marked k marked),
    fun k isUnmarked j zero => right.zero k isUnmarked j
      (left.zero k (unmarked k isUnmarked) j zero), fun k isUnmarked => ?_⟩
  rcases right.directed k isUnmarked with same | zero
  · rw [same]
    exact left.directed k (unmarked k isUnmarked)
  · exact .inr zero

end Rows

/-! ## One row -/

/-- A value that the chosen one improves on; all values if it is infinite. -/
def Improved (sign val value : Int) : Prop :=
  val = infinite ∨ val = negInfinite ∨ Worse sign val value

/-- What setting a variable in one row leaves. -/
structure RowSet (i : Nat) (sign val : Int) (k : Nat) (state after : Acyclic) :
    Prop where
  tracks : Tracks after.work (allRows after.work) after.isSvpc after.bounds
  reduces : Reduces i state after
  done : after.isSvpc k = false → (after.work.row k).coeff i = 0
  relaxes : ∀ point : Nat → Int, Improved sign val (point i) →
    state.work.Holds point → after.work.Holds point
  restores : val ≠ infinite → val ≠ negInfinite → ∀ point : Nat → Int,
    point i = val → after.work.Holds point → state.work.Holds point

section OneRow

variable {allow inconsistent : Bool} {state after : Acyclic} {i k : Nat}
  {work : Work} {new : Row} {isSvpc : Nat → Bool} {bounds newBounds : Bounds}
  {sign val : Int} {point : Nat → Int}

theorem setRow_self : (work.setRow k new).row k = new :=
  update_self _ _ _

theorem setRow_of_ne {j : Nat} (apart : j ≠ k) : (work.setRow k new).row j = work.row j :=
  update_of_ne apart _ _

/-- The rows hold when one of them is set. -/
theorem setRow_holds (inside : k < work.rows) :
    (work.setRow k new).Holds point ↔
      new.Holds work.cols point ∧ ∀ j < work.rows, j ≠ k → (work.row j).Holds work.cols point := by
  constructor
  · intro all
    refine ⟨?_, fun j below apart => ?_⟩
    · have own := all k inside
      rw [setRow_self] at own
      exact own
    · have own := all j below
      rw [setRow_of_ne apart] at own
      exact own
  · rintro ⟨own, others⟩ j below
    by_cases here : j = k
    · rw [here, setRow_self]
      exact own
    · rw [setRow_of_ne here]
      exact others j below here

theorem insert_others (inside : k < work.rows) : insert k (allRows work \ {k}) = allRows work := by
  rw [Set.insert_sdiff_singleton]
  exact Set.insert_eq_of_mem inside

/-- A row that is not marked may be set, and be marked or not. -/
theorem Tracks.set {mark : Bool} (tracks : Tracks work (allRows work) isSvpc bounds)
    (inside : k < work.rows) (unmarked : isSvpc k = false) (ordered : newBounds.Ordered)
    (own : mark = true ↔ (variablesOf work.cols new).length ≤ 1)
    (sound : ∀ point : Nat → Int, bounds.Holds work.cols point →
      (mark = true → new.Holds work.cols point) → newBounds.Holds work.cols point) :
    Tracks (work.setRow k new) (allRows work) (Function.update isSvpc k mark)
      newBounds := by
  have others : Tracks (work.setRow k new) (allRows work \ {k}) isSvpc bounds := by
    refine ⟨tracks.ordered, fun j member => ?_, fun point all =>
      tracks.sound point fun j below marked => ?_⟩
    · rw [setRow_of_ne member.2]
      exact tracks.marks j member.1
    · have apart : j ≠ k := by
        rintro rfl
        rw [unmarked] at marked
        cases marked
      have hold := all j ⟨below, apart⟩ marked
      rw [setRow_of_ne apart] at hold
      exact hold
  rw [← insert_others inside]
  refine others.mark (fun member => member.2 rfl) ordered ?_ ?_
  · rw [setRow_self]
    exact own
  · rw [setRow_self]
    exact sound

theorem Complete.set {mark : Bool} (complete : Complete work (allRows work) isSvpc bounds)
    (inside : k < work.rows)
    (own : ∀ point : Nat → Int, newBounds.Holds work.cols point →
      bounds.Holds work.cols point ∧ (mark = true → new.Holds work.cols point)) :
    Complete (work.setRow k new) (allRows work) (Function.update isSvpc k mark) newBounds := by
  have others : Complete (work.setRow k new) (allRows work \ {k}) isSvpc
      bounds := by
    intro point holds j member marked
    rw [setRow_of_ne member.2]
    exact complete point holds j member.1 marked
  rw [← insert_others inside]
  refine others.mark (fun member => member.2 rfl) ?_
  rw [setRow_self]
  exact own

/-- Setting a row keeps what it has to. -/
theorem reduces_set {mark : Bool} (unmarked : state.isSvpc k = false)
    (zero : mark = false → ∀ j, (state.work.row k).coeff j = 0 → new.coeff j = 0)
    (own : mark = false → new.coeff i = 0) (lower : newBounds.lower i = state.bounds.lower i)
    (upper : newBounds.upper i = state.bounds.upper i) :
    Reduces i state
      { state with
        work := state.work.setRow k new
        bounds := newBounds
        isSvpc := Function.update state.isSvpc k mark } := by
  refine ⟨rfl, rfl, rfl, lower, upper, fun j marked => ?_,
    fun j isUnmarked => ?_, fun j isUnmarked => ?_⟩
  · have apart : j ≠ k := by
      rintro rfl
      rw [unmarked] at marked
      cases marked
    dsimp only
    rw [update_of_ne apart]
    exact marked
  · dsimp only at isUnmarked ⊢
    by_cases here : j = k
    · rw [here, update_self] at isUnmarked
      rw [here, setRow_self]
      exact zero isUnmarked
    · rw [setRow_of_ne here]
      exact fun _ isZero => isZero
  · dsimp only at isUnmarked ⊢
    by_cases here : j = k
    · rw [here, update_self] at isUnmarked
      rw [here, setRow_self]
      exact .inr (own isUnmarked)
    · rw [setRow_of_ne here]
      exact .inl rfl

/-- The bounds of a variable that a row does not have stay. -/
theorem oneVarConsistent_other {var : Nat} (apart : i ≠ var)
    (passed : oneVarConsistent allow var [new] bounds = (true, newBounds)) :
    newBounds.lower i = bounds.lower i ∧ newBounds.upper i = bounds.upper i := by
  unfold oneVarConsistent at passed
  dsimp only at passed
  split_ifs at passed
  · cases passed
    exact ⟨rfl, rfl⟩
  · cases passed
    exact ⟨rfl, rfl⟩
  · cases passed
  · cases passed
    exact setBound_other apart

/-- One row of `Acy_Set_Var`. -/
theorem acySetRow_spec (tracks : Tracks state.work (allRows state.work) state.isSvpc state.bounds)
    (column : i < state.work.cols) (inside : k < state.work.rows) (unit : sign = 1 ∨ sign = -1)
    (directed : state.isSvpc k = false → 0 ≤ sign * (state.work.row k).coeff i)
    (fits : ProductFits i val state k)
    (ran : acySetRow allow i val k state = (after, inconsistent)) :
    if inconsistent then
      ∀ point : Nat → Int, Improved sign val (point i) → ¬state.work.Holds point
    else RowSet i sign val k state after := by
  unfold acySetRow at ran
  split at ran
  · rename_i skips
    obtain ⟨rfl, rfl⟩ := Prod.mk.inj ran
    refine ⟨tracks, Reduces.refl _ _, fun isUnmarked => ?_,
      fun _ _ holds => holds, fun _ _ _ _ holds => holds⟩
    refine skips.resolve_left fun marked => ?_
    rw [marked] at isUnmarked
    cases isUnmarked
  rename_i sets
  obtain ⟨marked, nonzero⟩ := not_or.mp sets
  have unmarked := Bool.eq_false_of_not_eq_true marked
  split at ran
  · rename_i isInfinite
    obtain ⟨rfl, rfl⟩ := Prod.mk.inj ran
    have trivially : ∀ point : Nat → Int,
        (clearRow state.work.cols (state.work.row k)).Holds state.work.cols
          point := fun point => (holds_of_none variablesOf_clearRow).mpr (le_refl _)
    refine ⟨tracks.set inside unmarked tracks.ordered ?_ fun _ holds _ => holds,
      reduces_set unmarked nofun nofun rfl rfl, fun isUnmarked => ?_,
      fun point _ holds => ?_, fun first second =>
        absurd isInfinite (not_or.mpr ⟨first, second⟩)⟩
    · rw [variablesOf_clearRow]
      simp
    · dsimp only at isUnmarked
      rw [update_self] at isUnmarked
      cases isUnmarked
    · exact (setRow_holds inside).mpr ⟨trivially point, fun j below _ => holds j below⟩
  rename_i isFinite
  obtain ⟨notInfinite, notNegInfinite⟩ := not_or.mp isFinite
  have product := fits ⟨unmarked, nonzero, notInfinite, notNegInfinite⟩
  have relaxes : ∀ point : Nat → Int, Improved sign val (point i) →
      state.work.Holds point →
        (setVarRow i val (state.work.row k)).Holds state.work.cols point := by
    intro point improved holds
    exact setVarRow_holds column unit (directed unmarked) product
      ((improved.resolve_left notInfinite).resolve_left notNegInfinite)
      (holds k inside)
  have zero : ∀ j, (state.work.row k).coeff j = 0 →
      (setVarRow i val (state.work.row k)).coeff j = 0 := by
    intro j isZero
    unfold setVarRow
    dsimp only
    split
    · rfl
    · exact isZero
  have own : (setVarRow i val (state.work.row k)).coeff i = 0 := if_pos rfl
  have relaxesAll : ∀ point : Nat → Int, Improved sign val (point i) →
      state.work.Holds point → (state.work.setRow k
        (setVarRow i val (state.work.row k))).Holds point :=
    fun point improved holds => (setRow_holds inside).mpr
      ⟨relaxes point improved holds, fun j below _ => holds j below⟩
  have restoresAll : ∀ point : Nat → Int, point i = val →
      (state.work.setRow k (setVarRow i val (state.work.row k))).Holds point →
        state.work.Holds point := by
    intro point same holds j below
    obtain ⟨hold, others⟩ := (setRow_holds inside).mp holds
    by_cases here : j = k
    · rw [here]
      exact (setVarRow_holds_iff column product same).mp hold
    · exact others j below here
  have several : 1 < (variablesOf state.work.cols (state.work.row k)).length := by
    have marks := tracks.marks k inside
    rw [unmarked] at marks
    simp only [Bool.false_eq_true, false_iff] at marks
    omega
  have atMost := @length_variablesOf_setVarRow state.work.cols i (state.work.row k) val
  dsimp only at ran
  split at ran
  · rename_i var_pos single
    have apart : i ≠ var_pos := by
      rintro rfl
      have member : i ∈ variablesOf state.work.cols (setVarRow i val (state.work.row k)) := by
        rw [show variablesOf state.work.cols (setVarRow i val (state.work.row k)) = [i] from single]
        exact List.mem_singleton_self _
      exact (mem_variablesOf.mp member).2 own
    have single' : variablesOf state.work.cols
        (setVarRow i val (state.work.row k)) = [var_pos] := single
    have singleRow : variablesOf state.work.cols
        ((state.work.setRow k (setVarRow i val (state.work.row k))).row k) = [var_pos] := by
      rw [setRow_self]
      exact single
    split at ran
    · rename_i newBounds crossed
      obtain ⟨-, rfl⟩ := Prod.mk.inj ran
      intro point improved holds
      rw [← @setRow_self k state.work (setVarRow i val (state.work.row k))] at crossed
      refine @single_crossed allow _ _ (state.work.setRow k
        (setVarRow i val (state.work.row k))) _ _ _ tracks.ordered singleRow crossed
        (tracks.sound point fun j below _ => holds j below) ?_
      rw [setRow_self]
      exact relaxes point improved holds
    · rename_i newBounds passed
      obtain ⟨rfl, rfl⟩ := Prod.mk.inj ran
      obtain ⟨lower, upper⟩ := oneVarConsistent_other apart passed
      refine ⟨tracks.set inside unmarked
        (oneVarConsistent_ordered tracks.ordered passed) ?_ ?_,
        reduces_set unmarked nofun nofun lower upper, fun _ => ?_,
        relaxesAll, fun _ _ => restoresAll⟩
      · rw [single']
        simp
      · intro point before hold
        rw [← @setRow_self k state.work (setVarRow i val (state.work.row k))] at passed
        refine @single_sound allow _ _ (state.work.setRow k
          (setVarRow i val (state.work.row k))) _ _ _ tracks.ordered singleRow passed
          before ?_
        rw [setRow_self]
        exact hold rfl
      · dsimp only
        rw [setRow_self]
        exact own
  · rename_i notSingle
    obtain ⟨rfl, rfl⟩ := Prod.mk.inj ran
    have long : ¬(variablesOf state.work.cols (setVarRow i val (state.work.row k))).length ≤ 1 := by
      intro short
      have length : (variablesOf state.work.cols
          (setVarRow i val (state.work.row k))).length = 1 := by omega
      obtain ⟨var, single⟩ := List.length_eq_one_iff.mp length
      exact notSingle var single
    have marksSame : Function.update state.isSvpc k false = state.isSvpc :=
      unmarked ▸ update_eq_self _ _
    have tracksSet := @Tracks.set k state.work
      (setVarRow i val (state.work.row k)) state.isSvpc state.bounds state.bounds
      false tracks inside unmarked tracks.ordered (by simp; omega)
      fun _ holds _ => holds
    have reducesSet := @reduces_set state i k
      (setVarRow i val (state.work.row k)) state.bounds false unmarked
      (fun _ => zero) (fun _ => own) rfl rfl
    rw [marksSame] at tracksSet reducesSet
    refine ⟨tracksSet, reducesSet, fun _ => ?_, relaxesAll,
      fun _ _ => restoresAll⟩
    dsimp only
    rw [setRow_self]
    exact own

end OneRow

/-! ## All rows -/

/-- What setting a variable in a list of rows leaves. -/
structure RowsSet (i : Nat) (sign val : Int) (rows : List Nat)
    (state after : Acyclic) : Prop where
  tracks : Tracks after.work (allRows after.work) after.isSvpc after.bounds
  reduces : Reduces i state after
  done : ∀ k ∈ rows, after.isSvpc k = false → (after.work.row k).coeff i = 0
  relaxes : ∀ point : Nat → Int, Improved sign val (point i) →
    state.work.Holds point → after.work.Holds point
  restores : val ≠ infinite → val ≠ negInfinite → ∀ point : Nat → Int,
    point i = val → after.work.Holds point → state.work.Holds point

section AllRows

variable {allow inconsistent : Bool} {state after : Acyclic} {i k : Nat}
  {sign val : Int} {rows : List Nat} {point : Nat → Int}

/-- A row that is marked no more after a reduction was never marked. -/
theorem Reduces.unmarked (reduces : Reduces i state after)
    (isUnmarked : after.isSvpc k = false) : state.isSvpc k = false := by
  by_contra isMarked
  rw [reduces.marked k (Bool.eq_true_of_not_eq_false isMarked)] at isUnmarked
  cases isUnmarked

/-- The direction of a leaf stays. -/
theorem Reduces.directs (reduces : Reduces i state after)
    (directed : state.isSvpc k = false → 0 ≤ sign * (state.work.row k).coeff i)
    (isUnmarked : after.isSvpc k = false) :
    0 ≤ sign * (after.work.row k).coeff i := by
  rcases reduces.directed k isUnmarked with same | zero
  · rw [same]
    exact directed (reduces.unmarked isUnmarked)
  · rw [zero, mul_zero]

/-- All rows of a list are set one after the other. -/
theorem acySetVar_spec (tracks : Tracks state.work (allRows state.work) state.isSvpc state.bounds)
    (column : i < state.work.cols) (unit : sign = 1 ∨ sign = -1)
    (inside : ∀ k ∈ rows, k < state.work.rows)
    (directed : ∀ k ∈ rows, state.isSvpc k = false → 0 ≤ sign * (state.work.row k).coeff i)
    (fits : AllSets (ProductFits i val) allow i val rows state)
    (ran : acySetVar allow i val rows state = (after, inconsistent)) :
    if inconsistent then
      ∀ point : Nat → Int, Improved sign val (point i) → ¬state.work.Holds point
    else RowsSet i sign val rows state after := by
  induction rows generalizing state with
  | nil =>
      obtain ⟨rfl, rfl⟩ := Prod.mk.inj ran
      exact ⟨tracks, Reduces.refl _ _, nofun,
        fun _ _ holds => holds, fun _ _ _ _ holds => holds⟩
  | cons row rows ih =>
      obtain ⟨own, later⟩ := fits
      unfold acySetVar at ran
      split at ran
      · rename_i next refuted
        obtain ⟨-, rfl⟩ := Prod.mk.inj ran
        exact acySetRow_spec tracks column (inside row List.mem_cons_self) unit
          (directed row List.mem_cons_self) own refuted
      · rename_i next passed
        have first : RowSet i sign val row state next := acySetRow_spec tracks
          column (inside row List.mem_cons_self) unit
          (directed row List.mem_cons_self) own passed
        have reduces := first.reduces
        rw [passed] at later
        have rest := ih first.tracks
          (by rw [reduces.cols]; exact column)
          (fun k member => by
            rw [reduces.rows]
            exact inside k (List.mem_cons_of_mem _ member))
          (fun k member => reduces.directs (directed k (List.mem_cons_of_mem _ member)))
          (later rfl) ran
        split at rest
        · rename_i refuted
          rw [if_pos refuted]
          exact fun point improved holds => rest point improved (first.relaxes point improved holds)
        · rename_i kept
          rw [if_neg kept]
          refine ⟨rest.tracks, reduces.trans rest.reduces,
            List.forall_mem_cons.mpr ⟨fun isUnmarked => ?_, rest.done⟩,
            fun point improved holds => rest.relaxes point improved
              (first.relaxes point improved holds),
            fun notInfinite notNegInfinite point same holds =>
              first.restores notInfinite notNegInfinite point same
                (rest.restores notInfinite notNegInfinite point same holds)⟩
          exact rest.reduces.zero row isUnmarked i (first.done (rest.reduces.unmarked isUnmarked))

/-- One row keeps the marked rows within the bounds. -/
theorem acySetRow_complete
    (tracks : Tracks state.work (allRows state.work) state.isSvpc state.bounds)
    (complete : Complete state.work (allRows state.work) state.isSvpc state.bounds)
    (inside : k < state.work.rows)
    (guards : GuardHolds i val state k)
    (ran : acySetRow true i val k state = (after, false)) :
    Complete after.work (allRows after.work) after.isSvpc after.bounds := by
  unfold acySetRow at ran
  split at ran
  · cases ran
    exact complete
  rename_i sets
  obtain ⟨marked, nonzero⟩ := not_or.mp sets
  have unmarked := Bool.eq_false_of_not_eq_true marked
  split at ran
  · obtain rfl := (Prod.mk.inj ran).1
    exact complete.set inside fun point holds => ⟨holds, fun _ =>
      (holds_of_none variablesOf_clearRow).mpr (le_refl _)⟩
  rename_i isFinite
  obtain ⟨notInfinite, notNegInfinite⟩ := not_or.mp isFinite
  have guard := guards ⟨unmarked, nonzero, notInfinite, notNegInfinite⟩
  dsimp only at ran
  split at ran
  · rename_i var_pos single
    have isSingle : variablesOf state.work.cols
        (setVarRow i val (state.work.row k)) = [var_pos] := single
    split at ran
    · cases (Prod.mk.inj ran).2
    · rename_i newBounds passed
      obtain rfl := (Prod.mk.inj ran).1
      rw [← @setRow_self k state.work (setVarRow i val (state.work.row k))]
        at passed
      refine complete.set inside fun point holds => ?_
      obtain ⟨before, own⟩ := @single_complete k var_pos (state.work.setRow k
        (setVarRow i val (state.work.row k))) point state.bounds newBounds
        tracks.ordered (by rw [setRow_self]; exact isSingle)
        (by rw [setRow_self]; exact guard var_pos isSingle) passed holds
      rw [setRow_self] at own
      exact ⟨before, fun _ => own⟩
  · obtain rfl := (Prod.mk.inj ran).1
    have marksSame : Function.update state.isSvpc k false = state.isSvpc :=
      unmarked ▸ update_eq_self _ _
    have completeSet := @Complete.set k state.work
      (setVarRow i val (state.work.row k)) state.isSvpc state.bounds state.bounds
      false complete inside fun point holds => ⟨holds, nofun⟩
    rw [marksSame] at completeSet
    exact completeSet

theorem acySetVar_complete
    (tracks : Tracks state.work (allRows state.work) state.isSvpc state.bounds)
    (complete : Complete state.work (allRows state.work) state.isSvpc state.bounds)
    (column : i < state.work.cols)
    (unit : sign = 1 ∨ sign = -1)
    (inside : ∀ k ∈ rows, k < state.work.rows)
    (directed : ∀ k ∈ rows, state.isSvpc k = false → 0 ≤ sign * (state.work.row k).coeff i)
    (fits : AllSets (ProductFits i val) true i val rows state)
    (guards : AllSets (GuardHolds i val) true i val rows state)
    (ran : acySetVar true i val rows state = (after, false)) :
    Complete after.work (allRows after.work) after.isSvpc after.bounds := by
  induction rows generalizing state with
  | nil =>
      cases ran
      exact complete
  | cons row rows ih =>
      obtain ⟨own, later⟩ := fits
      obtain ⟨guard, laterGuards⟩ := guards
      unfold acySetVar at ran
      split at ran
      · cases (Prod.mk.inj ran).2
      · rename_i next passed
        have first : RowSet i sign val row state next := acySetRow_spec tracks
          column (inside row List.mem_cons_self) unit
          (directed row List.mem_cons_self) own passed
        have reduces := first.reduces
        rw [passed] at later laterGuards
        exact ih first.tracks
          (acySetRow_complete tracks complete (inside row List.mem_cons_self) guard passed)
          (by rw [reduces.cols]; exact column)
          (fun k member => by
            rw [reduces.rows]
            exact inside k (List.mem_cons_of_mem _ member))
          (fun k member => reduces.directs (directed k (List.mem_cons_of_mem _ member)))
          (later rfl) (laterGuards rfl) ran

end AllRows

/-! ## Variables without a best value -/

/-- What deleting the rows of a variable leaves as it was. -/
structure Deletes (i : Nat) (state after : Acyclic) : Prop where
  bounds : after.bounds = state.bounds
  untouched : ∀ k, (state.work.row k).coeff i = 0 →
    after.work.row k = state.work.row k ∧ after.isSvpc k = state.isSvpc k

section Infinite

variable {allow inconsistent : Bool} {state after : Acyclic} {i k : Nat}
  {sign val : Int} {rows : List Nat} {point : Nat → Int} {work : Work}

theorem acySetRow_infinite (isInfinite : val = infinite ∨ val = negInfinite)
    (ran : acySetRow allow i val k state = (after, inconsistent)) :
    Deletes i state after := by
  unfold acySetRow at ran
  split at ran
  · cases ran
    exact ⟨rfl, fun _ _ => ⟨rfl, rfl⟩⟩
  · rename_i sets
    cases ran
    refine ⟨rfl, fun j zero => ?_⟩
    have apart : j ≠ k := by
      rintro rfl
      exact sets (.inr zero)
    exact ⟨setRow_of_ne apart, update_of_ne apart _ _⟩

theorem acySetVar_infinite (isInfinite : val = infinite ∨ val = negInfinite)
    (ran : acySetVar allow i val rows state = (after, inconsistent)) :
    Deletes i state after := by
  induction rows generalizing state with
  | nil =>
      cases ran
      exact ⟨rfl, fun _ _ => ⟨rfl, rfl⟩⟩
  | cons row rows ih =>
      unfold acySetVar at ran
      split at ran
      · rename_i next refuted
        cases ran
        exact acySetRow_infinite isInfinite refuted
      · rename_i next passed
        have first := acySetRow_infinite isInfinite passed
        have rest := ih ran
        refine ⟨rest.bounds.trans first.bounds, fun j zero => ?_⟩
        obtain ⟨row, mark⟩ := first.untouched j zero
        obtain ⟨row', mark'⟩ := rest.untouched j (by rw [row]; exact zero)
        exact ⟨row'.trans row, mark'.trans mark⟩

/-- A value that is far enough satisfies all rows that bound the variable from
the other side. -/
theorem exists_far (column : i < work.cols) (unit : sign = 1 ∨ sign = -1) (point : Nat → Int) :
    ∃ value, 0 ≤ sign * (point i - value) ∧
      ∀ k < work.rows, 0 < sign * (work.row k).coeff i →
        (work.row k).Holds work.cols (Function.update point i value) := by
  let excess (k : Nat) : Int :=
    |(work.row k).value work.cols point| + |(work.row k).bound|
  have nonneg : ∀ k, 0 ≤ excess k := fun k =>
    add_nonneg (abs_nonneg _) (abs_nonneg _)
  let total := ∑ k ∈ Finset.range work.rows, excess k
  have square : sign * sign = 1 := by
    rcases unit with rfl | rfl <;> rfl
  refine ⟨point i - sign * total, ?_, fun k below bounded => ?_⟩
  · rw [sub_sub_cancel, ← mul_assoc, square, one_mul]
    exact Finset.sum_nonneg fun k _ => nonneg k
  · have most : excess k ≤ total := Finset.single_le_sum
      (fun k _ => nonneg k) (Finset.mem_range.mpr below)
    have least : 0 ≤ total := le_trans (nonneg k) most
    have value := le_abs_self ((work.row k).value work.cols point)
    have bound := neg_abs_le (work.row k).bound
    have steep : total ≤ sign * (work.row k).coeff i * total := le_mul_of_one_le_left least bounded
    unfold Inequality.Holds
    rw [Inequality.value_update column]
    simp only [Int.cast_id]
    calc (work.row k).value work.cols point + (work.row k).coeff i *
          (point i - sign * total - point i)
        = (work.row k).value work.cols point - sign * (work.row k).coeff i * total := by ring
      _ ≤ (work.row k).value work.cols point - total := by linarith
      _ ≤ (work.row k).bound := by
          change |_| + |_| ≤ total at most
          linarith

end Infinite

/-! ## Leaves that are set -/

section SetLeaf

variable {allow : Bool} {state after : Acyclic} {i : Nat} {sign : Int}
  {point : Nat → Int} {bounds : Bounds}

/-- The points within the bounds do no better than the value of a leaf. -/
theorem improved_of_holds (unit : sign = 1 ∨ sign = -1) (column : i < state.work.cols)
    (holds : state.bounds.Holds state.work.cols point) :
    Improved sign (leafValue state i sign) (point i) := by
  have admits := holds i column
  unfold Improved Worse leafValue
  rcases unit with rfl | rfl
  · rw [if_pos (by decide)]
    rcases admits.lower with wide | lower
    · exact .inr (.inl wide)
    · exact .inr (.inr (by omega))
  · rw [if_neg (by decide)]
    rcases admits.upper with wide | upper
    · exact .inl wide
    · exact .inr (.inr (by omega))

/-- The value of a leaf is within its bounds, unless it is infinite. -/
theorem admits_leafValue (ordered : state.bounds.Ordered) :
    state.bounds.Admits i (leafValue state i sign) := by
  have order := ordered.order i
  unfold leafValue
  split_ifs
  · exact ⟨.inr (le_refl _), .inr order⟩
  · exact ⟨.inr order, .inr (le_refl _)⟩

/-- Bounds hold at a point that differs in one variable. -/
theorem Bounds.Holds.update {cols : Nat} (holds : bounds.Holds cols point)
    {value : Int} (admits : bounds.Admits i value) :
    bounds.Holds cols (Function.update point i value) := by
  intro j below
  by_cases here : j = i
  · rw [here, update_self]
    exact admits
  · rw [update_of_ne here]
    exact holds j below

/-- A row without the variable holds at a point that differs in it. -/
theorem holds_update_zero {row : Row} {cols : Nat} (zero : row.coeff i = 0) (value : Int) :
    row.Holds cols (Function.update point i value) ↔ row.Holds cols point := by
  unfold Inequality.Holds
  rw [Inequality.value_update_zero zero]

/-- What is left after a leaf is set has a solution only if there was one. -/
theorem feasible_of_set (tracks : Tracks state.work (allRows state.work) state.isSvpc state.bounds)
    (complete : Complete state.work (allRows state.work) state.isSvpc state.bounds)
    (column : i < state.work.cols)
    (unit : sign = 1 ∨ sign = -1)
    (directed : ∀ k < state.work.rows, state.isSvpc k = false →
      0 ≤ sign * (state.work.row k).coeff i)
    (set : RowsSet i sign (leafValue state i sign) (List.range state.work.rows) state after)
    (completeAfter : Complete after.work (allRows after.work) after.isSvpc after.bounds)
    (ran : acySetVar allow i (leafValue state i sign)
      (List.range state.work.rows) state = (after, false))
    (holds : after.work.Holds point) :
    ∃ solution : Nat → Int, state.work.Holds solution := by
  have reduces := set.reduces
  have within : after.bounds.Holds state.work.cols point := by
    have inBounds := set.tracks.sound point fun k below _ => holds k below
    rw [reduces.cols] at inBounds
    exact inBounds
  by_cases isInfinite : leafValue state i sign = infinite ∨ leafValue state i sign = negInfinite
  · have deletes := acySetVar_infinite isInfinite ran
    obtain ⟨value, beyond, far⟩ := exists_far column unit point
    refine ⟨Function.update point i value, fun k below => ?_⟩
    have admits : state.bounds.Admits i value := by
      have own := within i column
      rw [deletes.bounds] at own
      have finiteLow := tracks.ordered.lower_finite i
      have finiteHigh := tracks.ordered.upper_finite i
      unfold leafValue at isInfinite
      rcases unit with rfl | rfl
      · rw [if_pos (by decide)] at isInfinite
        have wide := isInfinite.resolve_left finiteLow.ne
        exact ⟨.inl wide, own.upper.imp_right fun upper => by omega⟩
      · rw [if_neg (by decide)] at isInfinite
        have wide := isInfinite.resolve_right finiteHigh.ne'
        exact ⟨own.lower.imp_right fun lower => by omega, .inl wide⟩
    by_cases marked : state.isSvpc k = true
    · rw [deletes.bounds] at within
      exact complete _ (within.update admits) k below marked
    · have isUnmarked := Bool.eq_false_of_not_eq_true marked
      by_cases zero : (state.work.row k).coeff i = 0
      · obtain ⟨row, -⟩ := deletes.untouched k zero
        have hold := holds k (by rw [reduces.rows]; exact below)
        rw [row, reduces.cols] at hold
        exact (holds_update_zero zero value).mpr hold
      · have nonneg := directed k below isUnmarked
        refine far k below ?_
        rcases unit with rfl | rfl
        · omega
        · omega
  · obtain ⟨notInfinite, notNegInfinite⟩ := not_or.mp isInfinite
    have admits : after.bounds.Admits i (leafValue state i sign) := by
      have own := @admits_leafValue state i sign tracks.ordered
      exact ⟨by rw [reduces.lower]; exact own.lower,
        by rw [reduces.upper]; exact own.upper⟩
    refine ⟨Function.update point i (leafValue state i sign),
      set.restores notInfinite notNegInfinite _ (update_self _ _ _)
        fun k below => ?_⟩
    by_cases marked : after.isSvpc k = true
    · refine completeAfter _ ?_ k below marked
      rw [reduces.cols]
      exact within.update admits
    · have isUnmarked := Bool.eq_false_of_not_eq_true marked
      have zero := set.done k (List.mem_range.mpr (by rw [← reduces.rows]; exact below)) isUnmarked
      exact (holds_update_zero zero _).mpr (holds k below)

end SetLeaf

/-! ## Turns -/

/-- Everything that a turn can do. -/
inductive TurnMoves (allow : Bool) (turn : Turn) :
    (TestResult × Acyclic) ⊕ Turn → Prop where
  | skip (column : turn.i < turn.state.work.cols)
      (isSet : turn.state.substituted turn.i = true) :
      TurnMoves allow turn (.inr { turn with i := turn.i + 1 })
  | fail (column : turn.i < turn.state.work.cols)
      (isUnset : turn.state.substituted turn.i = false)
      (inner : varLeaf turn.state turn.i = none) :
      TurnMoves allow turn
        (.inr { turn with i := turn.i + 1, failedOne := true })
  | unused (column : turn.i < turn.state.work.cols)
      (isUnset : turn.state.substituted turn.i = false)
      (leaf : varLeaf turn.state turn.i = some 0) :
      TurnMoves allow turn
        (.inr
          { turn with
            i := turn.i + 1
            state := turn.state.substitute turn.i })
  | refute {sign : Int} {after : Acyclic}
      (column : turn.i < turn.state.work.cols)
      (isUnset : turn.state.substituted turn.i = false)
      (leaf : varLeaf turn.state turn.i = some sign) (used : sign ≠ 0)
      (ran : acySetVar allow turn.i (leafValue turn.state turn.i sign)
        (List.range turn.state.work.rows) (turn.state.substitute turn.i) =
        (after, true)) :
      TurnMoves allow turn (.inl (.inconsistent, after))
  | set {sign : Int} {after : Acyclic}
      (column : turn.i < turn.state.work.cols)
      (isUnset : turn.state.substituted turn.i = false)
      (leaf : varLeaf turn.state turn.i = some sign) (used : sign ≠ 0)
      (ran : acySetVar allow turn.i (leafValue turn.state turn.i sign)
        (List.range turn.state.work.rows) (turn.state.substitute turn.i) =
        (after, false)) :
      TurnMoves allow turn
        (.inr { turn with state := after, i := turn.i + 1, subbedOne := true })
  | again (past : turn.state.work.cols ≤ turn.i)
      (subbed : turn.subbedOne = true) (failed : turn.failedOne = true) :
      TurnMoves allow turn
        (.inr
          { state := turn.state
            i := 0
            subbedOne := false
            failedOne := false })
  | inapplicable (past : turn.state.work.cols ≤ turn.i)
      (failed : turn.failedOne = true) :
      TurnMoves allow turn (.inl (.inapplicable, turn.state))
  | consistent (past : turn.state.work.cols ≤ turn.i)
      (passed : turn.failedOne = false) :
      TurnMoves allow turn (.inl (.consistent, turn.state))

section Turns

variable {allow : Bool} {first : Work} {turn next : Turn} {state after : Acyclic}
  {result : TestResult} {i k : Nat} {sign val : Int} {rows : List Nat}

theorem turnMoves : TurnMoves allow turn (acyclicTurn allow turn) := by
  unfold acyclicTurn
  dsimp only
  split
  · rename_i column
    split
    · rename_i isSet
      exact .skip column isSet
    · rename_i notSet
      have isUnset := Bool.eq_false_of_not_eq_true notSet
      split
      · rename_i inner
        exact .fail column isUnset inner
      · rename_i sign leaf
        split
        · rename_i zero
          exact .unused column isUnset (zero ▸ leaf)
        · rename_i used
          split
          · rename_i after ran
            exact .refute column isUnset leaf used ran
          · rename_i after ran
            exact .set column isUnset leaf used ran
  · rename_i past
    split
    · rename_i both
      exact .again (not_lt.mp past) both.1 both.2
    · split
      · rename_i failed
        exact .inapplicable (not_lt.mp past) failed
      · rename_i passed
        exact .consistent (not_lt.mp past) (Bool.eq_false_of_not_eq_true passed)

/-! ### The loop ends -/

theorem acySetRow_frame :
    (acySetRow allow i val k state).1.work.cols = state.work.cols ∧
      (acySetRow allow i val k state).1.substituted = state.substituted := by
  unfold acySetRow
  split
  · exact ⟨rfl, rfl⟩
  · split
    · exact ⟨rfl, rfl⟩
    · dsimp only
      split
      · split
        · exact ⟨rfl, rfl⟩
        · exact ⟨rfl, rfl⟩
      · exact ⟨rfl, rfl⟩

theorem acySetVar_frame {found : Bool} (ran : acySetVar allow i val rows state = (after, found)) :
    after.work.cols = state.work.cols ∧ after.substituted = state.substituted := by
  induction rows generalizing state with
  | nil =>
      cases ran
      exact ⟨rfl, rfl⟩
  | cons row rows ih =>
      have frame := @acySetRow_frame allow state i row val
      unfold acySetVar at ran
      split at ran
      · rename_i next refuted
        cases ran
        rw [refuted] at frame
        exact frame
      · rename_i next passed
        obtain ⟨cols, substituted⟩ := ih ran
        rw [passed] at frame
        exact ⟨cols.trans frame.1, substituted.trans frame.2⟩

/-- The variables that are not substituted yet. -/
def unset (state : Acyclic) : Finset Nat :=
  (Finset.range state.work.cols).filter (state.substituted · = false)

/-- How far the loop is from its end. -/
def remaining (turn : Turn) : Nat :=
  (turn.state.work.cols + 1) *
      (2 * (unset turn.state).card + turn.subbedOne.toNat) +
    (turn.state.work.cols - turn.i)

/-- A variable that is substituted is not left. -/
theorem card_unset (column : i < state.work.cols) (isUnset : state.substituted i = false)
    (cols : after.work.cols = state.work.cols)
    (substituted : after.substituted = Function.update state.substituted i true) :
    (unset after).card + 1 = (unset state).card := by
  have member : i ∈ unset state := Finset.mem_filter.mpr ⟨Finset.mem_range.mpr column, isUnset⟩
  have erased : unset after = (unset state).erase i := by
    ext j
    unfold unset
    rw [cols, substituted, Finset.mem_erase, Finset.mem_filter, Finset.mem_filter]
    by_cases here : j = i
    · rw [here, update_self]
      simp
    · rw [update_of_ne here]
      simp [here]
  rw [erased, Finset.card_erase_add_one member]

/-- Every turn that goes on comes closer to the end. -/
theorem remaining_lt (moved : acyclicTurn allow turn = .inr next) :
    remaining next < remaining turn := by
  have moves := @turnMoves allow turn
  rw [moved] at moves
  unfold remaining
  cases moves with
  | skip | fail =>
      dsimp only
      omega
  | unused column isUnset leaf =>
      have card := @card_unset turn.state (turn.state.substitute turn.i) turn.i
        column isUnset rfl rfl
      have weight := Nat.mul_le_mul_left (turn.state.work.cols + 1)
        (show 2 * (unset (turn.state.substitute turn.i)).card +
            turn.subbedOne.toNat ≤
          2 * (unset turn.state).card + turn.subbedOne.toNat by omega)
      dsimp only [Acyclic.substitute_work]
      omega
  | set column isUnset leaf used ran =>
      rename_i sign after
      obtain ⟨cols, substituted⟩ := acySetVar_frame ran
      have card := card_unset column isUnset cols substituted
      dsimp only
      rw [cols, Acyclic.substitute_work]
      have weight := Nat.mul_le_mul_left (turn.state.work.cols + 1)
        (show 2 * (unset after).card + true.toNat ≤
          2 * (unset turn.state).card + turn.subbedOne.toNat by
            simp only [Bool.toNat_true]
            omega)
      omega
  | again past subbed failed =>
      dsimp only
      rw [subbed]
      simp only [Bool.toNat_true, Bool.toNat_false, mul_add]
      omega

/-- More turns do not change the result. -/
theorem acyclicLoop_mono {turns more : Nat} {found : TestResult × Acyclic}
    (le : turns ≤ more) (ends : acyclicLoop allow turns turn = some found) :
    acyclicLoop allow more turn = some found := by
  induction turns generalizing more turn with
  | zero => cases ends
  | succ turns ih =>
      obtain ⟨more, rfl⟩ := Nat.exists_eq_add_of_le' (Nat.zero_lt_of_lt le)
      unfold acyclicLoop at ends ⊢
      split at ends
      · exact ends
      · exact ih (Nat.le_of_succ_le_succ le) ends

/-- The loop ends within as many turns as remain. -/
theorem acyclicLoop_ends : ∃ result, acyclicLoop allow (remaining turn + 1) turn = some result := by
  induction bound : remaining turn using Nat.strong_induction_on generalizing turn with
  | _ value ih =>
      have enough : ∀ (turns : Nat) (turn : Turn), remaining turn < value →
          remaining turn < turns → ∃ result, acyclicLoop allow turns turn = some result := by
        intro turns turn less few
        obtain ⟨result, ends⟩ := ih _ less rfl
        exact ⟨result, acyclicLoop_mono (by omega) ends⟩
      unfold acyclicLoop
      split
      · rename_i result _
        exact ⟨result, rfl⟩
      · rename_i next moved
        have less := remaining_lt moved
        exact enough value next (by omega) (by omega)

end Turns

/-! ## What a test keeps -/

/-- The rows of a turn follow from the first ones, and have lost the variables
that are substituted. -/
structure Kept (first : Work) (turn : Turn) : Prop where
  cols : turn.state.work.cols = first.cols
  tracks : Tracks turn.state.work (allRows turn.state.work) turn.state.isSvpc
    turn.state.bounds
  relaxes : ∀ point : Nat → Int, first.Holds point → turn.state.work.Holds point
  gone : ∀ j, turn.state.substituted j = true → ∀ k < turn.state.work.rows,
    turn.state.isSvpc k = false → (turn.state.work.row k).coeff j = 0
  passed : turn.failedOne = false → ∀ j < turn.i,
    turn.state.substituted j = true

/-- The marked rows of a turn are its bounds, and a solution of its rows leads
to one of the first ones. -/
structure Restores (first : Work) (turn : Turn) : Prop where
  complete : Complete turn.state.work (allRows turn.state.work)
    turn.state.isSvpc turn.state.bounds
  restores : (∃ point : Nat → Int, turn.state.work.Holds point) →
    ∃ point : Nat → Int, first.Holds point

section Results

variable {allow : Bool} {first : Work} {found : Svpc} {turn next : Turn}
  {after : Acyclic} {result : TestResult} {sign : Int}

/-- What is known of a leaf that is set. -/
theorem setsLeaf (kept : Kept first turn) (column : turn.i < turn.state.work.cols)
    (isUnset : turn.state.substituted turn.i = false)
    (leaf : varLeaf turn.state turn.i = some sign) (used : sign ≠ 0)
    (fits : TurnSets ProductFits allow turn) {inconsistent : Bool}
    (ran : acySetVar allow turn.i (leafValue turn.state turn.i sign)
      (List.range turn.state.work.rows) (turn.state.substitute turn.i) = (after, inconsistent)) :
    if inconsistent then ∀ point : Nat → Int, ¬first.Holds point
    else RowsSet turn.i sign (leafValue turn.state turn.i sign)
      (List.range turn.state.work.rows) (turn.state.substitute turn.i) after := by
  have isLeaf := varLeaf_spec leaf
  have unit : sign = 1 ∨ sign = -1 := by
    have unit := isLeaf.unit
    omega
  have spec := @acySetVar_spec allow inconsistent
    (turn.state.substitute turn.i) after turn.i sign _ _ kept.tracks column unit
    (fun k member => List.mem_range.mp member) isLeaf.directed
    (fits sign column isUnset leaf used) ran
  split at spec
  · rename_i refuted
    rw [if_pos refuted]
    intro point holds
    have hold := kept.relaxes point holds
    exact spec point (improved_of_holds unit column
      (kept.tracks.sound point fun k below _ => hold k below)) hold
  · rename_i passed
    rw [if_neg passed]
    exact spec

/-- Every turn keeps the rows. -/
theorem Kept.step (kept : Kept first turn) (fits : TurnSets ProductFits allow turn)
    (moved : acyclicTurn allow turn = .inr next) : Kept first next := by
  have moves := @turnMoves allow turn
  rw [moved] at moves
  have upTo : ∀ {substituted : Nat → Bool}, substituted turn.i = true →
      (∀ j < turn.i, substituted j = true) → ∀ j < turn.i + 1, substituted j = true :=
    fun own below => Nat.forall_lt_succ_right.mpr ⟨below, own⟩
  cases moves with
  | skip column isSet =>
      exact ⟨kept.cols, kept.tracks, kept.relaxes, kept.gone,
        fun passed => upTo isSet (kept.passed passed)⟩
  | fail column isUnset inner =>
      exact ⟨kept.cols, kept.tracks, kept.relaxes, kept.gone, nofun⟩
  | unused column isUnset leaf =>
      have isLeaf := varLeaf_spec leaf
      refine ⟨kept.cols, kept.tracks, kept.relaxes, fun j substituted => ?_,
        fun passed => upTo (update_self _ _ _) fun j below => ?_⟩
      · by_cases here : j = turn.i
        · rw [here]
          exact fun k below => isLeaf.unused rfl k (List.mem_range.mpr below)
        · refine kept.gone j ?_
          change Function.update turn.state.substituted turn.i true j = true
            at substituted
          rw [update_of_ne here] at substituted
          exact substituted
      · exact (update_of_ne below.ne _ _).trans (kept.passed passed j below)
  | again past subbed failed =>
      exact ⟨kept.cols, kept.tracks, kept.relaxes, kept.gone,
        fun _ j below => absurd below (Nat.not_lt_zero _)⟩
  | set column isUnset leaf used ran =>
      rename_i sign after
      have isLeaf := varLeaf_spec leaf
      have set : RowsSet turn.i sign (leafValue turn.state turn.i sign)
          (List.range turn.state.work.rows) (turn.state.substitute turn.i)
            after := setsLeaf kept column isUnset leaf used fits ran
      have reduces := set.reduces
      have rows : after.work.rows = turn.state.work.rows := reduces.rows
      have substituted : after.substituted = Function.update turn.state.substituted turn.i true :=
        reduces.substituted
      refine ⟨reduces.cols.trans kept.cols, set.tracks, fun point holds => ?_,
        fun j isSet k below isUnmarked => ?_, fun passed => ?_⟩
      · have hold := kept.relaxes point holds
        have unit := isLeaf.unit
        exact set.relaxes point (improved_of_holds (by omega) column
          (kept.tracks.sound point fun k below _ => hold k below)) hold
      · change k < after.work.rows at below
        rw [rows] at below
        change after.substituted j = true at isSet
        rw [substituted] at isSet
        by_cases here : j = turn.i
        · rw [here]
          exact set.done k (List.mem_range.mpr below) isUnmarked
        · rw [update_of_ne here] at isSet
          exact reduces.zero k isUnmarked j
            (kept.gone j isSet k below (reduces.unmarked isUnmarked))
      · change ∀ j < turn.i + 1, after.substituted j = true
        rw [substituted]
        exact upTo (update_self _ _ _) fun j below =>
          (update_of_ne below.ne _ _).trans (kept.passed passed j below)

/-- Every turn leads back, where the guards stay off. -/
theorem Restores.step (kept : Kept first turn) (restores : Restores first turn)
    (fits : TurnSets ProductFits true turn) (guards : TurnSets GuardHolds true turn)
    (moved : acyclicTurn true turn = .inr next) : Restores first next := by
  have moves := @turnMoves true turn
  rw [moved] at moves
  cases moves with
  | skip column isSet | fail column isUnset inner | unused column isUnset leaf
  | again past subbed failed => exact ⟨restores.complete, restores.restores⟩
  | set column isUnset leaf used ran =>
      rename_i sign after
      have isLeaf := varLeaf_spec leaf
      have unit : sign = 1 ∨ sign = -1 := by
        have unit := isLeaf.unit
        omega
      have set : RowsSet turn.i sign (leafValue turn.state turn.i sign)
          (List.range turn.state.work.rows) (turn.state.substitute turn.i)
            after := setsLeaf kept column isUnset leaf used fits ran
      have complete := @acySetVar_complete (turn.state.substitute turn.i) after
        turn.i sign _ _ kept.tracks restores.complete column unit
        (fun k member => List.mem_range.mp member) isLeaf.directed
        (fits sign column isUnset leaf used)
        (guards sign column isUnset leaf used) ran
      refine ⟨complete, fun ⟨point, holds⟩ => restores.restores ?_⟩
      exact @feasible_of_set true (turn.state.substitute turn.i) after turn.i
        sign point kept.tracks restores.complete column unit
        (fun k below => isLeaf.directed k (List.mem_range.mpr below)) set
        complete ran holds

/-- Where all variables are substituted, every row is marked. -/
theorem Kept.marked (kept : Kept first turn)
    (all : ∀ j < turn.state.work.cols, turn.state.substituted j = true)
    {k : Nat} (below : k < turn.state.work.rows) :
    turn.state.isSvpc k = true := by
  by_contra notMarked
  have isUnmarked := Bool.eq_false_of_not_eq_true notMarked
  have marks := kept.tracks.marks k below
  rw [isUnmarked] at marks
  have empty : variablesOf turn.state.work.cols (turn.state.work.row k) = [] := by
    rw [List.eq_nil_iff_forall_not_mem]
    intro j member
    obtain ⟨inside, nonzero⟩ := mem_variablesOf.mp member
    exact nonzero (kept.gone j (all j inside) k below isUnmarked)
  rw [empty] at marks
  simp at marks

/-- Result `ACY_INCONSISTENT`. -/
theorem Kept.inconsistent (kept : Kept first turn) (fits : TurnSets ProductFits allow turn)
    (ended : acyclicTurn allow turn = .inl (.inconsistent, after)) :
    ∀ point : Nat → Int, ¬first.Holds point := by
  have moves := @turnMoves allow turn
  rw [ended] at moves
  cases moves with
  | refute column isUnset leaf used ran =>
      exact setsLeaf kept column isUnset leaf used fits ran

/-- Result `ACY_CONSISTENT`. -/
theorem Restores.consistent (kept : Kept first turn) (restores : Restores first turn)
    (ended : acyclicTurn allow turn = .inl (.consistent, after)) :
    ∃ point : Nat → Int, first.Holds point := by
  have moves := @turnMoves allow turn
  rw [ended] at moves
  cases moves with
  | consistent past passed =>
      have all : ∀ j < turn.state.work.cols, turn.state.substituted j = true :=
        fun j below => kept.passed passed j (lt_of_lt_of_le below past)
      obtain ⟨point, within⟩ := @exists_holds turn.state.work.cols _ kept.tracks.ordered
      exact restores.restores ⟨point, fun k below =>
        restores.complete point within k below (kept.marked all below)⟩

/-- Result `ACY_INAPPLICABLE`. -/
theorem inapplicable_state (ended : acyclicTurn allow turn = .inl (.inapplicable, after)) :
    after = turn.state := by
  have moves := @turnMoves allow turn
  rw [ended] at moves
  cases moves with
  | inapplicable past failed => rfl

/-- The last turn of a loop is reached. -/
theorem acyclicLoop_last {turns : Nat} {start : Turn} (reached : ReachedTurn allow start turn)
    (ran : acyclicLoop allow turns turn = some (result, after)) :
    ∃ last, ReachedTurn allow start last ∧ acyclicTurn allow last = .inl (result, after) := by
  induction turns generalizing turn with
  | zero => cases ran
  | succ turns ih =>
      unfold acyclicLoop at ran
      split at ran
      · rename_i ended
        cases ran
        exact ⟨turn, reached, ended⟩
      · rename_i next moved
        exact ih (reached.tail moved) ran

theorem kept_of_reached (tracks : Tracks first (allRows first) found.isSvpc found.bounds)
    (fits : ∀ turn, ReachedTurn allow (firstTurn first found) turn →
      TurnSets ProductFits allow turn)
    (reached : ReachedTurn allow (firstTurn first found) turn) :
    Kept first turn := by
  induction reached with
  | start isFirst =>
      cases isFirst
      exact ⟨rfl, tracks, fun _ holds => holds, nofun,
        fun _ j below => absurd below (Nat.not_lt_zero _)⟩
  | tail reached moved ih =>
      exact ih.step (fits _ reached) moved

theorem restores_of_reached (tracks : Tracks first (allRows first) found.isSvpc found.bounds)
    (complete : Complete first (allRows first) found.isSvpc found.bounds)
    (fits : ∀ turn, ReachedTurn true (firstTurn first found) turn → TurnSets ProductFits true turn)
    (guards : ∀ turn, ReachedTurn true (firstTurn first found) turn → TurnSets GuardHolds true turn)
    (reached : ReachedTurn true (firstTurn first found) turn) :
    Restores first turn := by
  induction reached with
  | start isFirst =>
      cases isFirst
      exact ⟨complete, fun feasible => feasible⟩
  | tail reached moved ih =>
      exact Restores.step (kept_of_reached tracks fits reached)
        ih (fits _ reached) (guards _ reached) moved

end Results

/-! ## Both tests -/

/--
`SVPC` answers consistent only where there is a solution and inconsistent only
where there is none; where it does not apply the acyclic test ends, answers the
same way, and leaves rows with a solution exactly where it gives up on rows
with one.
-/
structure TestExact (work : Work) (result : TestResult) (found : Svpc) :
    Prop where
  consistent : result = .consistent → ∃ point : Nat → Int, work.Holds point
  inconsistent : result = .inconsistent → ∀ point : Nat → Int, ¬work.Holds point
  ends : ∃ turns after,
    acyclicLoop true turns (firstTurn work found) = some after
  acyclicConsistent : result = .inapplicable → ∀ turns after,
    acyclicLoop true turns (firstTurn work found) = some (.consistent, after) →
      ∃ point : Nat → Int, work.Holds point
  acyclicInconsistent : result = .inapplicable → ∀ turns after,
    acyclicLoop true turns (firstTurn work found) =
        some (.inconsistent, after) →
      ∀ point : Nat → Int, ¬work.Holds point
  inapplicable : result = .inapplicable → ∀ turns after,
    acyclicLoop true turns (firstTurn work found) =
        some (.inapplicable, after) →
      ((∃ point : Nat → Int, after.work.Holds point) ↔ ∃ point : Nat → Int, work.Holds point)

section Both

variable {work : Work} {marks : Nat → Bool} {result : TestResult} {found : Svpc}

/-- Below the guards the tests are exact, where the products have 32 bits. -/
theorem testExact_of_productFits (ran : svpc true marks work = (result, found))
    (svpcGuards : GuardsHold work)
    (guards : ∀ turn, ReachedTurn true (firstTurn work found) turn → TurnSets GuardHolds true turn)
    (fits : ∀ turn, ReachedTurn true (firstTurn work found) turn →
      TurnSets ProductFits true turn) :
    TestExact work result found := by
  have spec := svpc_spec ran
  have tracked : result = .inapplicable →
      Tracks work (allRows work) found.isSvpc found.bounds ∧
        Complete work (allRows work) found.isSvpc found.bounds := by
    rintro rfl
    rw [if_neg (by decide)] at spec
    exact ⟨spec.1, spec.2.2 rfl svpcGuards⟩
  have last : ∀ {turns acyclicResult after},
      acyclicLoop true turns (firstTurn work found) =
          some (acyclicResult, after) →
        ∃ turn, ReachedTurn true (firstTurn work found) turn ∧
          acyclicTurn true turn = .inl (acyclicResult, after) :=
    fun ran => acyclicLoop_last (.start rfl) ran
  refine ⟨?_, ?_, ?_, fun given turns after ends => ?_,
    fun given turns after ends => ?_, fun given turns after ends => ?_⟩
  · rintro rfl
    rw [if_neg (by decide)] at spec
    obtain ⟨tracks, single, complete⟩ := spec
    obtain ⟨point, within⟩ := @exists_holds work.cols _ tracks.ordered
    exact ⟨point, fun k below => complete rfl svpcGuards point within k below
      ((tracks.marks k below).mpr (single.mp rfl k below))⟩
  · rintro rfl
    rw [if_pos rfl] at spec
    exact spec
  · obtain ⟨after, ends⟩ := @acyclicLoop_ends true (firstTurn work found)
    exact ⟨_, after, ends⟩
  · obtain ⟨tracks, complete⟩ := tracked given
    obtain ⟨turn, reached, ended⟩ := last ends
    exact (restores_of_reached tracks complete fits guards reached).consistent
      (kept_of_reached tracks fits reached) ended
  · obtain ⟨tracks, complete⟩ := tracked given
    obtain ⟨turn, reached, ended⟩ := last ends
    exact (kept_of_reached tracks fits reached).inconsistent (fits turn reached)
      ended
  · obtain ⟨tracks, complete⟩ := tracked given
    obtain ⟨turn, reached, ended⟩ := last ends
    rw [inapplicable_state ended]
    have kept := kept_of_reached tracks fits reached
    have restores := restores_of_reached tracks complete fits guards reached
    exact ⟨restores.restores, fun ⟨point, holds⟩ =>
      ⟨point, kept.relaxes point holds⟩⟩

/-- The inequality `first x + second y ≤ bound`. -/
def boundBoth (first second bound : Int) (fits : Fits32 first) (fits' : Fits32 second) : Row where
  coeff col := if col = 0 then first else if col = 1 then second else 0
  bound := bound
  fits := fits_both first second fits fits'

/-- The inequality `factor x + factor y ≤ 0` below bounds on `x` and `y`. -/
def leafWork (factor low other : Int) (fits : Fits32 factor) : Work where
  row index :=
    if index = 0 then boundBoth factor factor 0 fits fits
    else if index = 1 then boundBoth (-1) 0 low ⟨by decide, by decide⟩ fits_zero
    else boundBoth 0 (-1) other fits_zero ⟨by decide, by decide⟩
  rows := 3
  cols := 2

/-- The turn after this one. -/
def nextTurn (turn : Turn) : Turn :=
  match acyclicTurn true turn with
  | .inl _ => turn
  | .inr next => next

/-- The turns of a test that takes three. -/
theorem turns_three {first turn : Turn} {ended : TestResult × Acyclic}
    (one : acyclicTurn true first = .inr (nextTurn first))
    (two : acyclicTurn true (nextTurn first) = .inr (nextTurn (nextTurn first)))
    (three : acyclicTurn true (nextTurn (nextTurn first)) = .inl ended)
    (reached : ReachedTurn true first turn) :
    turn = first ∨ turn = nextTurn first ∨ turn = nextTurn (nextTurn first) := by
  induction reached with
  | start isFirst => exact .inl isFirst
  | tail _ moved ih =>
      rcases ih with rfl | rfl | rfl
      · exact .inr (.inl (Sum.inr.inj (moved.symm.trans one)))
      · exact .inr (.inr (Sum.inr.inj (moved.symm.trans two)))
      · cases moved.symm.trans three

/-- A property of the rows that are set in a test that takes three turns, the
second variable being unused. -/
theorem turnSets_three {property : Nat → Int → Acyclic → Nat → Prop}
    {first : Turn} {ended : TestResult × Acyclic}
    (one : acyclicTurn true first = .inr (nextTurn first))
    (two : acyclicTurn true (nextTurn first) = .inr (nextTurn (nextTurn first)))
    (three : acyclicTurn true (nextTurn (nextTurn first)) = .inl ended)
    (own : TurnSets property true first)
    (unused : varLeaf (nextTurn first).state (nextTurn first).i = some 0)
    (past : (nextTurn (nextTurn first)).state.work.cols ≤ (nextTurn (nextTurn first)).i) :
    ∀ turn, ReachedTurn true first turn → TurnSets property true turn := by
  intro turn reached
  rcases turns_three one two three reached with rfl | rfl | rfl
  · exact own
  · intro sign _ _ leaf used
    exact absurd (Option.some.inj (leaf.symm.trans unused)) used
  · intro sign column
    exact absurd column (not_lt.mpr past)

/-- The inequalities `2 x + 2 y ≤ 0`, `-x ≤ -1` and `-y ≤ 1`. -/
def smallLeaf : Work := leafWork 2 (-1) 1 ⟨by decide, by decide⟩

/-- What `SVPC` finds in them. -/
def smallFound : Svpc := (svpc true (fun _ => false) smallLeaf).2

/-- The tests are exact on small inequalities. -/
theorem testExact_smallLeaf : TestExact smallLeaf .inapplicable smallFound := by
  refine @testExact_of_productFits smallLeaf (fun _ => false) .inapplicable
    smallFound rfl ?_ ?_ ?_
  · intro k below var _
    change k < 3 at below
    interval_cases k <;> decide
  · refine turnSets_three rfl rfl rfl ?_ rfl (le_refl _)
    intro sign _ _ leaf _
    cases (show some 1 = some sign from leaf)
    refine And.intro (fun _ _ _ => by decide) fun _ => And.intro ?_ fun _ =>
      And.intro ?_ fun _ => trivial
    · exact fun sets => absurd sets.1 (by decide)
    · exact fun sets => absurd sets.1 (by decide)
  · refine turnSets_three rfl rfl rfl ?_ rfl (le_refl _)
    intro sign _ _ leaf _
    cases (show some 1 = some sign from leaf)
    refine And.intro (fun _ _ _ => ⟨by decide, by decide⟩) fun _ =>
      And.intro ?_ fun _ => And.intro ?_ fun _ => trivial
    · exact fun sets => absurd sets.1 (by decide)
    · exact fun sets => absurd sets.1 (by decide)

/-- The inequalities `65536 x + 65536 y ≤ 0`, `-x ≤ -65536` and
`-y ≤ 65535`. -/
def wideLeaf : Work := leafWork 65536 (-65536) 65535 ⟨by decide, by decide⟩

/-- What `SVPC` finds in them. -/
def wideFound : Svpc := (svpc true (fun _ => false) wideLeaf).2

theorem wideLeaf_infeasible (point : Nat → Int) : ¬wideLeaf.Holds point := by
  intro holds
  have sum := holds 0 (by decide)
  have low := holds 1 (by decide)
  have other := holds 2 (by decide)
  unfold Inequality.Holds at sum low other
  rw [Inequality.value_eq_sum] at sum low other
  simp [wideLeaf, leafWork, boundBoth, Finset.sum_range_succ] at sum low other
  omega

/-- The product of `65536` and `65536` is cut off to zero, and the inequalities
are taken to have a solution. -/
theorem not_testExact : ¬∀ (work : Work) (marks : Nat → Bool) (result : TestResult) (found : Svpc),
    svpc true marks work = (result, found) → GuardsHold work →
      (∀ turn, ReachedTurn true (firstTurn work found) turn →
        TurnSets GuardHolds true turn) → TestExact work result found := by
  intro exactly
  have wide := exactly wideLeaf (fun _ => false) .inapplicable wideFound rfl ?_ ?_
  · obtain ⟨point, holds⟩ := wide.acyclicConsistent rfl 3 _ rfl
    exact wideLeaf_infeasible point holds
  · intro k below var _
    change k < 3 at below
    interval_cases k <;> decide
  · refine turnSets_three rfl rfl rfl ?_ rfl (le_refl _)
    intro sign _ _ leaf _
    cases (show some 1 = some sign from leaf)
    refine And.intro (fun _ _ _ => by decide) fun _ => And.intro ?_ fun _ =>
      And.intro ?_ fun _ => trivial
    · exact fun sets => absurd sets.1 (by decide)
    · exact fun sets => absurd sets.1 (by decide)

end Both

end OpenUH.Lno.SystemOfEquations
