import OpenUH.Foundation.Arrangement
import OpenUH.Lno.Mat
import Mathlib.Tactic.Linarith

/-!
# The storage of systems of equations

How `SYSTEM_OF_EQUATIONS` of `soe.cxx` keeps its rows: for each of the two
kinds of rows a matrix, an array of constants, the number of rows and the
number of rows there is space for.  The work array is memory that all systems
share; its rows have 30 columns and stand one behind the other.
-/

namespace OpenUH.Lno.SystemOfEquations

open Foundation.Arrangement

/-- One kind of rows: `_Ale`, `_ble`, `_eqns_le` and `_eqns_le_stored`. -/
structure RowStore where
  a : Mat Int
  b : Nat → Option Int
  eqns : Int
  eqnsStored : Nat

/-- `SYSTEM_OF_EQUATIONS`. -/
structure SystemStorage where
  le : RowStore
  eq : RowStore
  vars : Nat

/-- `_work` with its constants, its rows and its columns. -/
structure WorkMemory where
  work : Mat Int
  const : Nat → Int
  rows : Nat
  cols : Nat

/-- `ROW_INCR`. -/
def rowIncr : Nat := 32

/-- `SOE_MAX_WORK_COLS`. -/
def soeMaxWorkCols : Nat := 30

/-- Write one element of an array. -/
def store {α : Type} (array : Nat → α) (index : Nat) (value : α) : Nat → α :=
  fun other => if other = index then value else array other

/-! ## One kind of rows -/

namespace RowStore

def create (eqns vars : Nat) : Option RowStore :=
  (Mat.create eqns vars).map fun a =>
    { a := a, b := fun _ => none, eqns := 0, eqnsStored := eqns }

/-- More rows of the matrix, and a new array with the constants there are. -/
def makeSpace (rows : RowStore) (more : Nat) : Option RowStore :=
  (rows.a.addRows more).map fun a =>
    { rows with
      a := a
      eqnsStored := rows.eqnsStored + more
      b := fun i => if (i : Int) < rows.eqns then rows.b i else none }

/-- `Add_Le` and `Add_Eq` of a row; a negative count is no row of the matrix. -/
def add (vars : Nat) (row : Nat → Option Int) (b : Option Int)
    (rows : RowStore) : Option RowStore :=
  if rows.eqns < 0 then
    none
  else
    (if rows.eqns + 1 > rows.eqnsStored then rows.makeSpace rowIncr
      else some rows).map fun rows =>
      { rows with
        a := rows.a.setRow rows.eqns.toNat (List.range vars) row
        b := store rows.b rows.eqns.toNat b
        eqns := rows.eqns + 1 }

/-- `Add_Le` and `Add_Eq` of a number of rows, which nothing is written to. -/
def addMany (numRows : Nat) (rows : RowStore) : Option RowStore :=
  (if rows.eqns + numRows > rows.eqnsStored then
      rows.makeSpace (max (rows.eqns + numRows - rows.eqnsStored).toNat rowIncr)
    else some rows).map fun rows =>
    { rows with eqns := rows.eqns + numRows }

/-- The part of `Add_Vars` for one kind of rows. -/
def addVars (vars numVars : Nat) (rows : RowStore) : Option RowStore :=
  (if rows.a.c < vars + numVars then rows.a.addCols numVars
    else some rows.a).map fun a =>
    { rows with
      a := a.fill (List.range rows.eqns.toNat) (List.range' vars numVars) (some 0) }

/-- The columns from one on are zero in each row. -/
def ZeroFrom (first count : Nat) (rows : RowStore) : Prop :=
  ∀ i ∈ List.range rows.eqns.toNat, ∀ j ∈ List.range' first count,
    rows.a.get i j = some 0

instance (first count : Nat) (rows : RowStore) : Decidable (rows.ZeroFrom first count) :=
  inferInstanceAs (Decidable (∀ i ∈ List.range rows.eqns.toNat, _))

/-- One turn of the loops of `Remove_Eq_Number` and `Remove_Le_Number`. -/
def shiftRow (vars : Nat) (rows : RowStore) (i : Nat) : RowStore :=
  { rows with
    a := rows.a.setRow (i - 1) (List.range vars) (rows.a.get i)
    b := store rows.b (i - 1) (rows.b i) }

/-- Move the rows behind the `k`-th down by one. -/
def shiftDown (vars k : Nat) (rows : RowStore) : RowStore :=
  (List.range' (k + 1) (rows.eqns.toNat - (k + 1))).foldl (shiftRow vars) rows

def removeLast (howMany : Nat) (rows : RowStore) : RowStore :=
  { rows with eqns := rows.eqns - howMany }

/-- Append the rows of another system. -/
def append (vars : Nat) (rows other : RowStore) : Option RowStore :=
  (List.range other.eqns.toNat).foldlM
    (fun rows r => rows.add vars (other.a.get r) (other.b r)) rows

/-- Append the rows of the system itself, whose number grows on the way. -/
def appendSelf (vars : Nat) : Nat → Nat → RowStore → Option RowStore
  | 0, _, _ => none
  | fuel + 1, r, rows =>
      if (r : Int) < rows.eqns then
        (rows.add vars (rows.a.get r) (rows.b r)).bind
          (appendSelf vars fuel (r + 1))
      else
        some rows

/-- The swap of two rows in `Sort_Le`. -/
def swap (cols i mx : Nat) (rows : RowStore) : RowStore :=
  { rows with
    a := (rows.a.setRow i (List.range cols) (rows.a.get mx)).setRow mx
      (List.range cols) (rows.a.get i)
    b := store (store rows.b i (rows.b mx)) mx (rows.b i) }

end RowStore

/-- The number that `Sort_Le` selects for a place. -/
def sortSelect (criteria : Nat → Int) (descending : Bool) (i rows : Nat) : Nat :=
  (List.range' (i + 1) (rows - (i + 1))).foldl
    (fun mx j =>
      if !descending then
        if criteria j < criteria mx then j else mx
      else
        if criteria j > criteria mx then j else mx) i

/-- One turn of `Sort_Le`. -/
def sortTurn (descending : Bool) (rows cols : Nat)
    (state : (Nat → Int) × RowStore) (i : Nat) : (Nat → Int) × RowStore :=
  let mx := sortSelect state.1 descending i rows
  if mx ≠ i then
    (store (store state.1 mx (state.1 i)) i (state.1 mx), state.2.swap cols i mx)
  else
    state

/-! ## Systems -/

namespace SystemStorage

/-- The constructor. -/
def create (eqnsLe eqnsEq vars : Nat) : Option SystemStorage := do
  let le ← RowStore.create eqnsLe vars
  let eq ← RowStore.create eqnsEq vars
  some { le := le, eq := eq, vars := vars }

def addLe (row : Nat → Int) (b : Int) (soe : SystemStorage) : Option SystemStorage :=
  (soe.le.add soe.vars (fun i => some (row i)) (some b)).map fun le =>
    { soe with le := le }

def addEq (row : Nat → Int) (b : Int) (soe : SystemStorage) : Option SystemStorage :=
  (soe.eq.add soe.vars (fun i => some (row i)) (some b)).map fun eq =>
    { soe with eq := eq }

def addLeRows (numRows : Nat) (soe : SystemStorage) : Option SystemStorage :=
  (soe.le.addMany numRows).map fun le => { soe with le := le }

def addEqRows (numRows : Nat) (soe : SystemStorage) : Option SystemStorage :=
  (soe.eq.addMany numRows).map fun eq => { soe with eq := eq }

def addVars (numVars : Nat) (soe : SystemStorage) : Option SystemStorage := do
  let le ← soe.le.addVars soe.vars numVars
  let eq ← soe.eq.addVars soe.vars numVars
  some { le := le, eq := eq, vars := soe.vars + numVars }

/-- `Remove_Last_Vars`, which stops the program if a variable is used. -/
def removeLastVars (numVars : Nat) (soe : SystemStorage) : Option SystemStorage :=
  if numVars ≤ soe.vars ∧ soe.le.ZeroFrom (soe.vars - numVars) numVars ∧
      soe.eq.ZeroFrom (soe.vars - numVars) numVars then
    some { soe with vars := soe.vars - numVars }
  else
    none

/-- `Add_Soe` of another system, which has as many variables. -/
def addSoe (soe other : SystemStorage) : Option SystemStorage :=
  if soe.vars = other.vars then do
    let le ← soe.le.append soe.vars other.le
    let eq ← soe.eq.append soe.vars other.eq
    some { soe with le := le, eq := eq }
  else
    none

/-- `Add_Soe` of the system itself. -/
def addSoeSelf (turns : Nat) (soe : SystemStorage) : Option SystemStorage := do
  let le ← soe.le.appendSelf soe.vars turns 0
  let eq ← soe.eq.appendSelf soe.vars turns 0
  some { soe with le := le, eq := eq }

def removeLastLe (howMany : Nat) (soe : SystemStorage) : SystemStorage :=
  { soe with le := soe.le.removeLast howMany }

def removeLastEq (howMany : Nat) (soe : SystemStorage) : SystemStorage :=
  { soe with eq := soe.eq.removeLast howMany }

def removeEqNumber (k : Nat) (soe : SystemStorage) : SystemStorage :=
  { soe with eq := (soe.eq.shiftDown soe.vars k).removeLast 1 }

/-- `Remove_Le_Number`, which counts an equation less. -/
def removeLeNumber (k : Nat) (soe : SystemStorage) : SystemStorage :=
  { soe with
    le := soe.le.shiftDown soe.vars k
    eq := soe.eq.removeLast 1 }

/-- `Reset_To`: what is to go is removed if it is a positive number. -/
def resetTo (nrowsLe nrowsEq ncols : Nat) (soe : SystemStorage) : Option SystemStorage :=
  let nle := soe.le.eqns - nrowsLe
  let neq := soe.eq.eqns - nrowsEq
  let nvr : Int := soe.vars - ncols
  let soe := if nle > 0 then soe.removeLastLe nle.toNat else soe
  let soe := if neq > 0 then soe.removeLastEq neq.toNat else soe
  if nvr > 0 then soe.removeLastVars nvr.toNat else some soe

/-- `Sort_Le`, with the criteria it leaves. -/
def sortLe (criteria : Nat → Int) (descending : Bool) (soe : SystemStorage) :
    SystemStorage × (Nat → Int) :=
  let rows := soe.le.eqns.toNat
  let sorted := (List.range (rows - 1)).foldl (sortTurn descending rows soe.vars)
    (criteria, soe.le)
  ({ soe with le := sorted.2 }, sorted.1)

end SystemStorage

/-- The columns of the work rows from the last work column on become zero. -/
def WorkMemory.zeroTo (vars : Nat) (memory : WorkMemory) : WorkMemory :=
  { memory with
    work := memory.work.fill (List.range memory.rows)
      (List.range' memory.cols (vars - memory.cols)) (some 0) }

/-- `Add_Work_Le`, with what it leaves of the work array. -/
def SystemStorage.addWorkLe (memory : WorkMemory) (soe : SystemStorage) :
    Option (SystemStorage × WorkMemory) :=
  (if memory.cols > soe.vars then soe.addVars (memory.cols - soe.vars + 1)
    else some soe).bind fun soe =>
    let memory := if memory.cols < soe.vars then memory.zeroTo soe.vars else memory
    ((List.range memory.rows).foldlM
      (fun (le : RowStore) r =>
        le.add soe.vars (memory.work.get r) (some (memory.const r)))
      soe.le).map fun le => ({ soe with le := le }, memory)

/-! ## The rows that are stored -/

/-- The rows of one kind, with their constants. -/
def RowStore.lists (vars : Nat) (rows : RowStore) : List (List (Option Int) × Option Int) :=
  entries (fun i => (entries (rows.a.get i) vars, rows.b i)) rows.eqns.toNat

/-- There is space for the rows, and for the variables. -/
structure RowStore.WellFormed (vars : Nat) (rows : RowStore) : Prop where
  formed : rows.a.WellFormed
  stored : rows.a.r = rows.eqnsStored
  nonneg : 0 ≤ rows.eqns
  few : rows.eqns ≤ rows.eqnsStored
  wide : vars ≤ rows.a.c

namespace RowStore

variable {vars : Nat} {rows rows' : RowStore}

/-- The columns of the variables are columns of the array. -/
theorem WellFormed.column (formed : rows.WellFormed vars) {col : Nat}
    (below : col < vars) : col < rows.a.cx :=
  lt_of_lt_of_le below (formed.wide.trans formed.formed.cols)

theorem WellFormed.row (formed : rows.WellFormed vars) {row : Nat}
    (below : row < rows.eqns.toNat) : row < rows.a.r := by
  have few := formed.few
  have stored := formed.stored
  omega

/-- The same cells, constants and number of rows are the same rows. -/
theorem lists_congr (eqns : rows'.eqns = rows.eqns)
    (cells : ∀ i < rows.eqns.toNat, ∀ j < vars, rows'.a.get i j = rows.a.get i j)
    (constants : ∀ i < rows.eqns.toNat, rows'.b i = rows.b i) :
    rows'.lists vars = rows.lists vars := by
  unfold lists
  rw [eqns]
  refine entries_congr fun i below => ?_
  rw [entries_congr (cells i below), constants i below]

/-- The rows of a matrix with the same cells. -/
theorem makeSpace_spec {more : Nat} (formed : rows.WellFormed vars)
    (made : rows.makeSpace more = some rows') :
    rows'.WellFormed vars ∧ rows'.eqns = rows.eqns ∧
      rows'.eqnsStored = rows.eqnsStored + more ∧
      rows'.lists vars = rows.lists vars := by
  obtain ⟨a, added, rfl⟩ := Option.map_eq_some_iff.mp made
  have grows := Mat.addRows_grows formed.formed added
  have few := formed.few
  have stored := formed.stored
  refine ⟨⟨grows.formed, ?_, formed.nonneg, ?_, ?_⟩, rfl, rfl,
    lists_congr rfl (fun i below j column => ?_) fun i below => ?_⟩
  · rw [grows.rows, stored]
  · push_cast
    omega
  · rw [grows.cols]
    exact formed.wide
  · exact grows.cells i (formed.row below) j (lt_of_lt_of_le column formed.wide)
  · exact if_pos (by omega)

theorem makeSpace_isSome {more : Nat} (formed : rows.WellFormed vars)
    (small : rows.eqnsStored + more ≤ 0x8000) :
    ∃ rows', rows.makeSpace more = some rows' := by
  obtain ⟨a, added⟩ := @Mat.addRows_isSome Int rows.a more (by
    rw [formed.stored]
    exact small)
  exact ⟨_, by rw [makeSpace, added]; rfl⟩

/-- A row is appended. -/
theorem add_spec {row : Nat → Option Int} {b : Option Int}
    (formed : rows.WellFormed vars) (added : rows.add vars row b = some rows') :
    rows'.WellFormed vars ∧ rows'.eqns = rows.eqns + 1 ∧
      rows'.lists vars = rows.lists vars ++ [(entries row vars, b)] := by
  have nonneg := formed.nonneg
  unfold add at added
  rw [if_neg (by omega)] at added
  obtain ⟨space, made, rfl⟩ := Option.map_eq_some_iff.mp added
  have spaced : space.WellFormed vars ∧ space.eqns = rows.eqns ∧
      space.eqns + 1 ≤ space.eqnsStored ∧
      space.lists vars = rows.lists vars := by
    split at made
    · rename_i full
      obtain ⟨formed', eqns, stored, lists⟩ := makeSpace_spec formed made
      have few := formed.few
      unfold rowIncr at stored
      exact ⟨formed', eqns, by omega, lists⟩
    · cases made
      exact ⟨formed, rfl, by omega, rfl⟩
  obtain ⟨formed', eqns, fits, lists⟩ := spaced
  have shape := @Mat.setRow_shape Int space.a space.eqns.toNat (List.range vars) row
  have cells (i j : Nat) (column : j < vars) :
      (space.a.setRow space.eqns.toNat (List.range vars) row).get i j =
        if i = space.eqns.toNat then row j else space.a.get i j := by
    rw [Mat.get_setRow (fun col member => formed'.column (List.mem_range.mp member))
      (formed'.column column)]
    by_cases here : i = space.eqns.toNat
    · rw [if_pos ⟨here, List.mem_range.mpr column⟩, if_pos here]
    · rw [if_neg fun both => here both.1, if_neg here]
  refine ⟨⟨formed'.formed.setRow _ _ _, ?_, ?_, by omega, ?_⟩, by rw [← eqns], ?_⟩
  · rw [shape.1]
    exact formed'.stored
  · dsimp only
    omega
  · rw [shape.2.1]
    exact formed'.wide
  · have next : (space.eqns + 1).toNat = space.eqns.toNat + 1 := by omega
    rw [← lists, RowStore.lists, next, entries_succ]
    congr 1
    · refine entries_congr fun i below => ?_
      refine Prod.ext (entries_congr fun j column => ?_) ?_
      · rw [cells i j column, if_neg (by omega)]
      · exact if_neg (by omega)
    · refine congrArg (fun entry => [entry]) (Prod.ext ?_ (if_pos rfl))
      exact entries_congr fun j column => by rw [cells _ j column, if_pos rfl]

theorem add_isSome {row : Nat → Option Int} {b : Option Int} (formed : rows.WellFormed vars)
    (small : rows.eqns < rows.eqnsStored ∨ rows.eqnsStored + rowIncr ≤ 0x8000) :
    ∃ rows', rows.add vars row b = some rows' := by
  have nonneg := formed.nonneg
  unfold add
  rw [if_neg (by omega)]
  split
  · obtain ⟨space, made⟩ := makeSpace_isSome formed (small.resolve_left (by omega))
    exact ⟨_, by rw [made]; rfl⟩
  · exact ⟨_, rfl⟩

end RowStore

end OpenUH.Lno.SystemOfEquations
