import OpenUH.Foundation.Transition
import OpenUH.Lno.SystemStorageRows

/-!
# Systems of equations as lists of rows

A system is two lists of rows with constants, and a number of variables.  Each
operation of `SYSTEM_OF_EQUATIONS` has a plain meaning on such lists; the
storage follows it across all growth of matrices and arrays, as long as no
inequality is removed by its number and no work row is wider than the system
or than the work array.
-/

namespace OpenUH.Lno.SystemOfEquations

open Foundation.Arrangement
open Foundation.Transition

/-! ## Systems of lists -/

/-- Inequalities, equations and the number of variables. -/
@[ext]
structure RowLists where
  le : List ListRow
  eq : List ListRow
  vars : Nat
deriving DecidableEq

/-- The rows that are stored. -/
def SystemStorage.lists (soe : SystemStorage) : RowLists where
  le := soe.le.lists soe.vars
  eq := soe.eq.lists soe.vars
  vars := soe.vars

/-- A system whose storage has space for its rows and variables. -/
structure SystemStorage.WellFormed (soe : SystemStorage) : Prop where
  le : soe.le.WellFormed soe.vars
  eq : soe.eq.WellFormed soe.vars

/-- The operations, with what they are given. -/
inductive Operation where
  | addLe (row : Nat → Int) (b : Int)
  | addEq (row : Nat → Int) (b : Int)
  | addLeRows (numRows : Nat)
  | addEqRows (numRows : Nat)
  | addVars (numVars : Nat)
  | addSoe (other : SystemStorage)
  | addSoeSelf
  | removeLastLe (howMany : Nat)
  | removeLastEq (howMany : Nat)
  | removeLeNumber (k : Nat)
  | removeEqNumber (k : Nat)
  | removeLastVars (numVars : Nat)
  | resetTo (nrowsLe nrowsEq ncols : Nat)
  | sortLe (criteria : Nat → Int) (descending : Bool)
  | addWorkLe (memory : WorkMemory)

/-- What the code makes of a system in a number of turns of its loops. -/
def SystemStorage.apply (turns : Nat) (soe : SystemStorage) :
    Operation → Option SystemStorage
  | .addLe row b => soe.addLe row b
  | .addEq row b => soe.addEq row b
  | .addLeRows numRows => soe.addLeRows numRows
  | .addEqRows numRows => soe.addEqRows numRows
  | .addVars numVars => soe.addVars numVars
  | .addSoe other => soe.addSoe other
  | .addSoeSelf => soe.addSoeSelf turns
  | .removeLastLe howMany => some (soe.removeLastLe howMany)
  | .removeLastEq howMany => some (soe.removeLastEq howMany)
  | .removeLeNumber k => some (soe.removeLeNumber k)
  | .removeEqNumber k => some (soe.removeEqNumber k)
  | .removeLastVars numVars => soe.removeLastVars numVars
  | .resetTo nrowsLe nrowsEq ncols => soe.resetTo nrowsLe nrowsEq ncols
  | .sortLe criteria descending => some (soe.sortLe criteria descending).1
  | .addWorkLe memory => (soe.addWorkLe memory).map Prod.fst

/-- The rows of the work array, as wide as a system. -/
def WorkMemory.lists (vars : Nat) (memory : WorkMemory) : List ListRow :=
  entries (fun r => ListRow.widen (vars - memory.cols)
    (entries (memory.work.get r) memory.cols, some (memory.const r))) memory.rows

namespace RowLists

/-- The same operation on lists. -/
def Does (lists : RowLists) (operation : Operation) (after : RowLists) : Prop :=
  match operation with
  | .addLe row b =>
      after = { lists with
        le := lists.le ++ [(entries (fun i => some (row i)) lists.vars, some b)] }
  | .addEq row b =>
      after = { lists with
        eq := lists.eq ++ [(entries (fun i => some (row i)) lists.vars, some b)] }
  | .addLeRows numRows => ∃ rows : List ListRow, rows.length = numRows ∧
      (∀ row ∈ rows, row.1.length = lists.vars) ∧
      after = { lists with le := lists.le ++ rows }
  | .addEqRows numRows => ∃ rows : List ListRow, rows.length = numRows ∧
      (∀ row ∈ rows, row.1.length = lists.vars) ∧
      after = { lists with eq := lists.eq ++ rows }
  | .addVars numVars =>
      after =
        { le := lists.le.map (ListRow.widen numVars)
          eq := lists.eq.map (ListRow.widen numVars)
          vars := lists.vars + numVars }
  | .addSoe other =>
      after = { lists with
        le := lists.le ++ other.lists.le
        eq := lists.eq ++ other.lists.eq }
  | .addSoeSelf =>
      after = { lists with
        le := lists.le ++ lists.le
        eq := lists.eq ++ lists.eq }
  | .removeLastLe howMany =>
      after = { lists with le := lists.le.take (lists.le.length - howMany) }
  | .removeLastEq howMany =>
      after = { lists with eq := lists.eq.take (lists.eq.length - howMany) }
  | .removeLeNumber k => after = { lists with le := lists.le.eraseIdx k }
  | .removeEqNumber k => after = { lists with eq := lists.eq.eraseIdx k }
  | .removeLastVars numVars =>
      after =
        { le := lists.le.map (ListRow.narrow (lists.vars - numVars))
          eq := lists.eq.map (ListRow.narrow (lists.vars - numVars))
          vars := lists.vars - numVars }
  | .resetTo nrowsLe nrowsEq ncols =>
      after =
        { le := (lists.le.take nrowsLe).map (ListRow.narrow ncols)
          eq := (lists.eq.take nrowsEq).map (ListRow.narrow ncols)
          vars := ncols }
  | .sortLe criteria descending => ∃ sorted : List Int,
      (sorted.zip after.le).Perm ((entries criteria lists.le.length).zip lists.le) ∧
      RowStore.Sorted descending sorted ∧ after.le.length = lists.le.length ∧
      sorted.length = lists.le.length ∧
      after.eq = lists.eq ∧ after.vars = lists.vars
  | .addWorkLe memory =>
      let vars := max lists.vars memory.cols
      after =
        { le := lists.le.map (ListRow.widen (vars - lists.vars)) ++ memory.lists vars
          eq := lists.eq.map (ListRow.widen (vars - lists.vars))
          vars := vars }

/-- What the operations may be asked for. -/
def Legal (lists : RowLists) : Operation → Prop
  | .addSoe other => other.WellFormed ∧ other.vars = lists.vars
  | .removeLastLe howMany => howMany ≤ lists.le.length
  | .removeLastEq howMany => howMany ≤ lists.eq.length
  | .removeLeNumber k => k < lists.le.length
  | .removeEqNumber k => k < lists.eq.length
  | .removeLastVars numVars => numVars ≤ lists.vars ∧
      ∀ row ∈ lists.le ++ lists.eq, ListRow.ZeroFrom (lists.vars - numVars) row
  | .resetTo nrowsLe nrowsEq ncols =>
      nrowsLe ≤ lists.le.length ∧ nrowsEq ≤ lists.eq.length ∧ ncols ≤ lists.vars ∧
      ∀ row ∈ lists.le.take nrowsLe ++ lists.eq.take nrowsEq,
        ListRow.ZeroFrom ncols row
  | .addWorkLe memory =>
      memory.work.cx = soeMaxWorkCols ∧ memory.cols ≤ soeMaxWorkCols
  | _ => True

/-- Where the code does what the operation means. -/
def Meets (lists : RowLists) : Operation → Prop
  | .removeLeNumber _ => False
  | .addSoeSelf => lists.le = [] ∧ lists.eq = []
  | .addWorkLe memory => memory.cols ≤ lists.vars ∧ (lists.vars ≤ soeMaxWorkCols ∨ memory.rows = 0)
  | _ => True

end RowLists

/-! ## One operation -/

section Steps

variable {soe after : SystemStorage} {turns : Nat}

/-- The narrower rows. -/
theorem RowStore.narrow_spec {vars fewer : Nat} {rows : RowStore}
    (formed : rows.WellFormed vars) (few : fewer ≤ vars) :
    rows.WellFormed fewer ∧ rows.lists fewer = (rows.lists vars).map (ListRow.narrow fewer) := by
  refine ⟨⟨formed.formed, formed.stored, formed.nonneg, formed.few, few.trans formed.wide⟩, ?_⟩
  unfold lists entries
  rw [List.map_map]
  refine List.map_congr_left fun i _ => Prod.ext ?_ rfl
  exact (take_entries _ few).symm

theorem SystemStorage.removeLastVars_spec {numVars : Nat} (formed : soe.WellFormed)
    (removed : soe.removeLastVars numVars = some after) :
    after.WellFormed ∧ soe.lists.Does (.removeLastVars numVars) after.lists := by
  unfold removeLastVars at removed
  split at removed
  · cases removed
    have le := RowStore.narrow_spec formed.le (Nat.sub_le soe.vars numVars)
    have eq := RowStore.narrow_spec formed.eq (Nat.sub_le soe.vars numVars)
    exact ⟨⟨le.1, eq.1⟩, RowLists.ext le.2 eq.2 rfl⟩
  · cases removed

theorem SystemStorage.addVars_spec {numVars : Nat} (formed : soe.WellFormed)
    (added : soe.addVars numVars = some after) :
    after.WellFormed ∧ soe.lists.Does (.addVars numVars) after.lists ∧
      after.le.eqns = soe.le.eqns ∧ after.le.eqnsStored = soe.le.eqnsStored := by
  unfold addVars at added
  obtain ⟨le, addedLe, rest⟩ := Option.bind_eq_some_iff.mp added
  obtain ⟨eq, addedEq, made⟩ := Option.bind_eq_some_iff.mp rest
  cases made
  obtain ⟨formedLe, eqnsLe, storedLe, listsLe⟩ := RowStore.addVars_spec formed.le addedLe
  obtain ⟨formedEq, -, -, listsEq⟩ := RowStore.addVars_spec formed.eq addedEq
  exact ⟨⟨formedLe, formedEq⟩, RowLists.ext listsLe listsEq rfl, eqnsLe, storedLe⟩

theorem SystemStorage.addSoe_spec {other : SystemStorage} (formed : soe.WellFormed)
    (added : soe.addSoe other = some after) :
    after.WellFormed ∧ soe.lists.Does (.addSoe other) after.lists := by
  unfold addSoe at added
  by_cases same : soe.vars = other.vars
  · rw [if_pos same] at added
    obtain ⟨le, addedLe, rest⟩ := Option.bind_eq_some_iff.mp added
    obtain ⟨eq, addedEq, made⟩ := Option.bind_eq_some_iff.mp rest
    cases made
    obtain ⟨formedLe, -, listsLe⟩ := RowStore.addAll_spec formed.le addedLe
    obtain ⟨formedEq, -, listsEq⟩ := RowStore.addAll_spec formed.eq addedEq
    refine ⟨⟨formedLe, formedEq⟩, RowLists.ext ?_ ?_ rfl⟩
    · change le.lists soe.vars = _ ++ other.le.lists other.vars
      rw [listsLe, ← same]
      rfl
    · change eq.lists soe.vars = _ ++ other.eq.lists other.vars
      rw [listsEq, ← same]
      rfl
  · rw [if_neg same] at added
    cases added

/-- Without rows, the rows of a system are appended at once. -/
theorem RowStore.appendSelf_nil {vars : Nat} {rows rows' : RowStore}
    (formed : rows.WellFormed vars) (none_ : rows.lists vars = [])
    (added : rows.appendSelf vars turns 0 = some rows') : rows' = rows := by
  have count := length_lists vars rows
  rw [none_] at count
  have nonneg := formed.nonneg
  cases turns with
  | zero => cases added
  | succ turns =>
      rw [appendSelf, if_neg (by simp at count; omega)] at added
      exact (Option.some.inj added).symm

theorem SystemStorage.addSoeSelf_spec (formed : soe.WellFormed)
    (meets : soe.lists.Meets .addSoeSelf) (added : soe.addSoeSelf turns = some after) :
    after.WellFormed ∧ soe.lists.Does .addSoeSelf after.lists := by
  unfold addSoeSelf at added
  obtain ⟨le, addedLe, rest⟩ := Option.bind_eq_some_iff.mp added
  obtain ⟨eq, addedEq, made⟩ := Option.bind_eq_some_iff.mp rest
  cases made
  obtain ⟨noLe, noEq⟩ := meets
  have sameLe := RowStore.appendSelf_nil formed.le noLe addedLe
  have sameEq := RowStore.appendSelf_nil formed.eq noEq addedEq
  subst sameLe sameEq
  refine ⟨formed, RowLists.ext ?_ ?_ rfl⟩
  · change soe.lists.le = soe.lists.le ++ soe.lists.le
    rw [noLe]
    rfl
  · change soe.lists.eq = soe.lists.eq ++ soe.lists.eq
    rw [noEq]
    rfl

/-- What a removal leaves if the first rows are to stay. -/
theorem RowStore.keepFirst_spec {vars kept : Nat} {rows : RowStore}
    (formed : rows.WellFormed vars) :
    (if rows.eqns - kept > 0 then rows.removeLast (rows.eqns - kept).toNat
        else rows).WellFormed vars ∧
      (if rows.eqns - kept > 0 then rows.removeLast (rows.eqns - kept).toNat
        else rows).lists vars = (rows.lists vars).take kept := by
  have nonneg := formed.nonneg
  have length := length_lists vars rows
  split
  · obtain ⟨formed', lists⟩ := @removeLast_spec vars rows (rows.eqns - kept).toNat formed (by omega)
    refine ⟨formed', ?_⟩
    rw [lists, length]
    congr 1
    omega
  · refine ⟨formed, ?_⟩
    rw [List.take_of_length_le (by omega)]

theorem ListRow.narrow_of_length {vars : Nat} {rows : List ListRow}
    (length : ∀ row ∈ rows, row.1.length = vars) :
    rows.map (ListRow.narrow vars) = rows := by
  refine (List.map_congr_left fun row member => ?_).trans (List.map_id rows)
  refine Prod.ext ?_ rfl
  exact List.take_of_length_le (length row member).le

/-- The rows are removed first, then the variables. -/
theorem SystemStorage.resetTo_eq (nrowsLe nrowsEq ncols : Nat) (soe : SystemStorage) :
    soe.resetTo nrowsLe nrowsEq ncols =
      if (soe.vars : Int) - ncols > 0 then
        SystemStorage.removeLastVars ((soe.vars : Int) - ncols).toNat
          ⟨if soe.le.eqns - nrowsLe > 0 then
              soe.le.removeLast (soe.le.eqns - nrowsLe).toNat else soe.le,
            if soe.eq.eqns - nrowsEq > 0 then
              soe.eq.removeLast (soe.eq.eqns - nrowsEq).toNat else soe.eq,
            soe.vars⟩
      else
        some
          ⟨if soe.le.eqns - nrowsLe > 0 then
              soe.le.removeLast (soe.le.eqns - nrowsLe).toNat else soe.le,
            if soe.eq.eqns - nrowsEq > 0 then
              soe.eq.removeLast (soe.eq.eqns - nrowsEq).toNat else soe.eq,
            soe.vars⟩ := by
  unfold resetTo
  by_cases less : soe.le.eqns - nrowsLe > 0
  · by_cases lessEq : soe.eq.eqns - nrowsEq > 0
    · simp only [if_pos less, removeLastLe, removeLastEq, if_pos lessEq]
    · simp only [if_pos less, removeLastLe, if_neg lessEq]
  · by_cases lessEq : soe.eq.eqns - nrowsEq > 0
    · simp only [if_neg less, removeLastEq, if_pos lessEq]
    · simp only [if_neg less, if_neg lessEq]

theorem SystemStorage.resetTo_spec {nrowsLe nrowsEq ncols : Nat}
    (formed : soe.WellFormed) (legal : soe.lists.Legal (.resetTo nrowsLe nrowsEq ncols))
    (reset : soe.resetTo nrowsLe nrowsEq ncols = some after) :
    after.WellFormed ∧ soe.lists.Does (.resetTo nrowsLe nrowsEq ncols) after.lists := by
  obtain ⟨-, -, fewCols, -⟩ := legal
  obtain ⟨formedLe, listsLe⟩ := @RowStore.keepFirst_spec soe.vars nrowsLe _ formed.le
  obtain ⟨formedEq, listsEq⟩ := @RowStore.keepFirst_spec soe.vars nrowsEq _ formed.eq
  generalize leIs : (if soe.le.eqns - nrowsLe > 0 then
    soe.le.removeLast (soe.le.eqns - nrowsLe).toNat else soe.le) = le at *
  generalize eqIs : (if soe.eq.eqns - nrowsEq > 0 then
    soe.eq.removeLast (soe.eq.eqns - nrowsEq).toNat else soe.eq) = eq at *
  rw [resetTo_eq, leIs, eqIs] at reset
  have formed' : (⟨le, eq, soe.vars⟩ : SystemStorage).WellFormed := ⟨formedLe, formedEq⟩
  have fewVars : ncols ≤ soe.vars := fewCols
  split at reset
  · obtain ⟨formedAfter, does⟩ := removeLastVars_spec formed' reset
    refine ⟨formedAfter, ?_⟩
    change after.lists = _ at does
    rw [does]
    have width : soe.vars - ((soe.vars : Int) - ncols).toNat = ncols := by omega
    refine RowLists.ext ?_ ?_ width
    · change (le.lists soe.vars).map (ListRow.narrow (soe.vars - _)) = _
      rw [width, listsLe]
      rfl
    · change (eq.lists soe.vars).map (ListRow.narrow (soe.vars - _)) = _
      rw [width, listsEq]
      rfl
  · cases reset
    have width : soe.vars = ncols := by omega
    refine ⟨formed', RowLists.ext ?_ ?_ width⟩
    · change le.lists soe.vars = (soe.lists.le.take nrowsLe).map _
      rw [listsLe, ← width]
      exact (ListRow.narrow_of_length fun row member =>
        RowStore.length_of_mem_lists (List.mem_of_mem_take member)).symm
    · change eq.lists soe.vars = (soe.lists.eq.take nrowsEq).map _
      rw [listsEq, ← width]
      exact (ListRow.narrow_of_length fun row member =>
        RowStore.length_of_mem_lists (List.mem_of_mem_take member)).symm

theorem SystemStorage.sortLe_spec {criteria : Nat → Int} {descending : Bool}
    (formed : soe.WellFormed) :
    (soe.sortLe criteria descending).1.WellFormed ∧
      soe.lists.Does (.sortLe criteria descending) (soe.sortLe criteria descending).1.lists := by
  obtain ⟨formedLe, eqns, perm, sorted⟩ := RowStore.sort_spec formed.le _ rfl
  refine ⟨⟨formedLe, formed.eq⟩, _, ?_, sorted, ?_, ?_, rfl, rfl⟩
  · change List.Perm _ (List.zip (entries criteria (soe.le.lists soe.vars).length)
      (soe.le.lists soe.vars))
    rw [RowStore.length_lists]
    exact perm
  · change (RowStore.lists soe.vars _).length = (soe.le.lists soe.vars).length
    rw [RowStore.length_lists, RowStore.length_lists]
    exact congrArg Int.toNat eqns
  · rw [length_entries]
    exact (RowStore.length_lists soe.vars soe.le).symm

/-- The work rows that are added, where they lie within the work array. -/
theorem WorkMemory.zeroTo_lists {vars : Nat} {memory : WorkMemory}
    (width : memory.work.cx = soeMaxWorkCols) (narrow : memory.cols ≤ vars)
    (inside : vars ≤ soeMaxWorkCols ∨ memory.rows = 0) :
    entries (fun r => (entries
      ((if memory.cols < vars then memory.zeroTo vars else memory).work.get r) vars,
        some (memory.const r))) memory.rows = memory.lists vars := by
  refine entries_congr fun r below => Prod.ext ?_ rfl
  have within : vars ≤ memory.work.cx := width ▸ inside.resolve_right (by omega)
  have columns : vars = memory.cols + (vars - memory.cols) := by omega
  have cells (j : Nat) (column : j < vars) :
      (if memory.cols < vars then memory.zeroTo vars else memory).work.get r j =
        if j < memory.cols then memory.work.get r j else some 0 := by
    split
    · change (memory.work.fill _ _ _).get r j = _
      rw [Mat.get_fill (fun col member => by
        have := List.mem_range'_1.mp member
        omega) (by omega)]
      by_cases old : j < memory.cols
      · rw [if_pos old, if_neg fun both => by
          have := List.mem_range'_1.mp both.2
          omega]
      · rw [if_neg old, if_pos ⟨List.mem_range.mpr below,
          List.mem_range'_1.mpr ⟨by omega, by omega⟩⟩]
    · rw [if_pos (by omega)]
  generalize (if memory.cols < vars then memory.zeroTo vars else memory).work.get r =
    cell at cells ⊢
  change entries cell vars = entries (memory.work.get r) memory.cols ++
    List.replicate (vars - memory.cols) (some 0)
  conv_lhs => rw [columns]
  rw [entries_add]
  congr 1
  · exact entries_congr fun j column => by
      rw [cells j (by omega), if_pos column]
  · rw [← entries_const (vars - memory.cols) (some 0)]
    exact entries_congr fun j column => by
      rw [cells _ (by omega), if_neg (by omega)]

theorem ListRow.widen_zero (rows : List ListRow) : rows.map (ListRow.widen 0) = rows := by
  refine (List.map_congr_left fun row _ => ?_).trans (List.map_id rows)
  exact Prod.ext (List.append_nil _) rfl

theorem SystemStorage.addWorkLe_spec {memory : WorkMemory}
    {result : SystemStorage × WorkMemory} (formed : soe.WellFormed)
    (legal : soe.lists.Legal (.addWorkLe memory)) (meets : soe.lists.Meets (.addWorkLe memory))
    (added : soe.addWorkLe memory = some result) :
    result.1.WellFormed ∧ soe.lists.Does (.addWorkLe memory) result.1.lists := by
  obtain ⟨narrow, inside⟩ := meets
  change memory.cols ≤ soe.vars at narrow
  unfold addWorkLe at added
  rw [if_neg (by omega), Option.bind_some] at added
  obtain ⟨le, appended, rfl⟩ := Option.map_eq_some_iff.mp added
  have rows : (if memory.cols < soe.vars then memory.zeroTo soe.vars
      else memory).rows = memory.rows := by
    split <;> rfl
  have constants : (if memory.cols < soe.vars then memory.zeroTo soe.vars
      else memory).const = memory.const := by
    split <;> rfl
  obtain ⟨formedLe, -, lists⟩ := RowStore.addAll_spec formed.le appended
  rw [rows, constants] at lists
  have same : max soe.vars memory.cols = soe.vars := max_eq_left narrow
  refine ⟨⟨formedLe, formed.eq⟩, ?_⟩
  refine RowLists.ext ?_ ?_ same.symm
  · change le.lists soe.vars = (soe.le.lists soe.vars).map
      (ListRow.widen (max soe.vars memory.cols - soe.vars)) ++
        memory.lists (max soe.vars memory.cols)
    rw [lists, same, Nat.sub_self, ListRow.widen_zero,
      WorkMemory.zeroTo_lists legal.1 narrow inside]
  · change soe.eq.lists soe.vars = (soe.eq.lists soe.vars).map
      (ListRow.widen (max soe.vars memory.cols - soe.vars))
    rw [same, Nat.sub_self, ListRow.widen_zero]

/-- An operation that meets the condition does to the lists what it means. -/
theorem SystemStorage.apply_does {operation : Operation} (formed : soe.WellFormed)
    (legal : soe.lists.Legal operation) (meets : soe.lists.Meets operation)
    (applied : soe.apply turns operation = some after) :
    after.WellFormed ∧ soe.lists.Does operation after.lists := by
  cases operation with
  | addLe row b =>
      obtain ⟨le, added, rfl⟩ := Option.map_eq_some_iff.mp applied
      obtain ⟨formedLe, -, lists⟩ := RowStore.add_spec formed.le added
      exact ⟨⟨formedLe, formed.eq⟩, RowLists.ext lists rfl rfl⟩
  | addEq row b =>
      obtain ⟨eq, added, rfl⟩ := Option.map_eq_some_iff.mp applied
      obtain ⟨formedEq, -, lists⟩ := RowStore.add_spec formed.eq added
      exact ⟨⟨formed.le, formedEq⟩, RowLists.ext rfl lists rfl⟩
  | addLeRows numRows =>
      obtain ⟨le, added, rfl⟩ := Option.map_eq_some_iff.mp applied
      obtain ⟨formedLe, -, extra, count, width, lists⟩ := RowStore.addMany_spec formed.le added
      exact ⟨⟨formedLe, formed.eq⟩, extra, count, width, RowLists.ext lists rfl rfl⟩
  | addEqRows numRows =>
      obtain ⟨eq, added, rfl⟩ := Option.map_eq_some_iff.mp applied
      obtain ⟨formedEq, -, extra, count, width, lists⟩ := RowStore.addMany_spec formed.eq added
      exact ⟨⟨formed.le, formedEq⟩, extra, count, width, RowLists.ext rfl lists rfl⟩
  | addVars numVars =>
      obtain ⟨formed', does, -⟩ := addVars_spec formed applied
      exact ⟨formed', does⟩
  | addSoe other => exact addSoe_spec formed applied
  | addSoeSelf => exact addSoeSelf_spec formed meets applied
  | removeLastLe howMany =>
      cases applied
      obtain ⟨formedLe, lists⟩ := RowStore.removeLast_spec formed.le legal
      exact ⟨⟨formedLe, formed.eq⟩, RowLists.ext lists rfl rfl⟩
  | removeLastEq howMany =>
      cases applied
      obtain ⟨formedEq, lists⟩ := RowStore.removeLast_spec formed.eq legal
      exact ⟨⟨formed.le, formedEq⟩, RowLists.ext rfl lists rfl⟩
  | removeLeNumber k => exact absurd meets id
  | removeEqNumber k =>
      cases applied
      obtain ⟨formedEq, lists⟩ := RowStore.removeNumber_spec formed.eq legal
      exact ⟨⟨formed.le, formedEq⟩, RowLists.ext rfl lists rfl⟩
  | removeLastVars numVars => exact removeLastVars_spec formed applied
  | resetTo nrowsLe nrowsEq ncols => exact resetTo_spec formed legal applied
  | sortLe criteria descending =>
      cases applied
      exact sortLe_spec formed
  | addWorkLe memory =>
      obtain ⟨result, added, rfl⟩ := Option.map_eq_some_iff.mp applied
      exact addWorkLe_spec formed legal meets added

/-! ## Operations come to an end -/

/-- No matrix becomes larger than the largest size there is. -/
def SystemStorage.Room (soe : SystemStorage) : Operation → Prop
  | .addLe _ _ => soe.le.eqnsStored + rowIncr ≤ 0x8000
  | .addEq _ _ => soe.eq.eqnsStored + rowIncr ≤ 0x8000
  | .addLeRows numRows => soe.le.eqnsStored + numRows + rowIncr ≤ 0x8000
  | .addEqRows numRows => soe.eq.eqnsStored + numRows + rowIncr ≤ 0x8000
  | .addVars numVars => soe.le.a.c + numVars ≤ 0x8000 ∧ soe.eq.a.c + numVars ≤ 0x8000
  | .addSoe other =>
      soe.le.eqnsStored + other.le.eqns.toNat + rowIncr ≤ 0x8000 ∧
      soe.eq.eqnsStored + other.eq.eqns.toNat + rowIncr ≤ 0x8000
  | .addWorkLe memory => soe.le.eqnsStored + memory.rows + rowIncr ≤ 0x8000
  | _ => True

namespace RowStore

variable {vars : Nat} {rows : RowStore}

theorem addMany_isSome {numRows : Nat} (formed : rows.WellFormed vars)
    (small : rows.eqnsStored + numRows + rowIncr ≤ 0x8000) :
    ∃ rows', rows.addMany numRows = some rows' := by
  have few := formed.few
  unfold addMany
  split
  · obtain ⟨space, made⟩ := @makeSpace_isSome vars rows
      (max (rows.eqns + numRows - rows.eqnsStored).toNat rowIncr) formed (by omega)
    exact ⟨_, by rw [made]; rfl⟩
  · exact ⟨_, rfl⟩

theorem addVars_isSome {numVars : Nat} (small : rows.a.c + numVars ≤ 0x8000) :
    ∃ rows', rows.addVars vars numVars = some rows' := by
  unfold addVars
  split
  · obtain ⟨a, added⟩ := Mat.addCols_isSome small
    exact ⟨_, by rw [added]; rfl⟩
  · exact ⟨_, rfl⟩

theorem addAll_isSome {row : Nat → Nat → Option Int} {b : Nat → Option Int}
    {count : Nat} (formed : rows.WellFormed vars)
    (small : rows.eqnsStored + count + rowIncr ≤ 0x8000) :
    ∃ rows', (List.range count).foldlM
      (fun (rows : RowStore) r => rows.add vars (row r) (b r)) rows = some rows' := by
  induction count with
  | zero => exact ⟨rows, rfl⟩
  | succ count ih =>
      obtain ⟨before, turns⟩ := ih (by omega)
      obtain ⟨formed', eqns, -⟩ := addAll_spec formed turns
      have few := formed.few
      have few' := formed'.few
      have room : before.eqns < before.eqnsStored ∨ before.eqnsStored + rowIncr ≤ 0x8000 := by
        by_cases full : before.eqns < before.eqnsStored
        · exact .inl full
        · exact .inr (by omega)
      obtain ⟨after, last⟩ := @add_isSome vars before (row count) (b count) formed' room
      refine ⟨after, ?_⟩
      rw [List.range_succ, List.foldlM_append, turns]
      change Option.bind (some before) _ = _
      rw [Option.bind_some, List.foldlM_cons, last]
      rfl

theorem zeroFrom_of_lists {first : Nat}
    (zero : ∀ row ∈ rows.lists vars, ListRow.ZeroFrom first row) :
    rows.ZeroFrom first (vars - first) := by
  intro i member j column
  have inside := List.mem_range'_1.mp column
  have row := zero _ (List.mem_map.mpr ⟨i, member, rfl⟩)
  refine row _ ?_
  have position : j - first < ((entries (rows.a.get i) vars).drop first).length := by
    rw [List.length_drop, length_entries]
    omega
  have value : ((entries (rows.a.get i) vars).drop first)[j - first] = rows.a.get i j := by
    rw [List.getElem_drop, getElem_entries]
    congr 1
    omega
  rw [← value]
  exact List.getElem_mem position

end RowStore

theorem SystemStorage.removeLastVars_isSome {numVars : Nat} (few : numVars ≤ soe.vars)
    (zero : ∀ row ∈ soe.lists.le ++ soe.lists.eq, ListRow.ZeroFrom (soe.vars - numVars) row) :
    ∃ after, soe.removeLastVars numVars = some after := by
  have width : soe.vars - (soe.vars - numVars) = numVars := by omega
  have le := @RowStore.zeroFrom_of_lists soe.vars soe.le (soe.vars - numVars)
    fun row member => zero row (List.mem_append_left _ member)
  have eq := @RowStore.zeroFrom_of_lists soe.vars soe.eq (soe.vars - numVars)
    fun row member => zero row (List.mem_append_right _ member)
  rw [width] at le eq
  exact ⟨_, if_pos ⟨few, le, eq⟩⟩

/-- Any operation that is legal, meets the condition and has room is done. -/
theorem SystemStorage.apply_isSome {operation : Operation} (formed : soe.WellFormed)
    (legal : soe.lists.Legal operation) (meets : soe.lists.Meets operation)
    (room : soe.Room operation) :
    ∃ turns after, soe.apply turns operation = some after := by
  refine ⟨1, ?_⟩
  cases operation with
  | addLe row b =>
      obtain ⟨le, added⟩ := @RowStore.add_isSome soe.vars soe.le
        (fun i => some (row i)) (some b) formed.le (.inr room)
      exact ⟨_, congrArg (Option.map _) added⟩
  | addEq row b =>
      obtain ⟨eq, added⟩ := @RowStore.add_isSome soe.vars soe.eq
        (fun i => some (row i)) (some b) formed.eq (.inr room)
      exact ⟨_, congrArg (Option.map _) added⟩
  | addLeRows numRows =>
      obtain ⟨le, added⟩ := RowStore.addMany_isSome formed.le room
      exact ⟨_, congrArg (Option.map _) added⟩
  | addEqRows numRows =>
      obtain ⟨eq, added⟩ := RowStore.addMany_isSome formed.eq room
      exact ⟨_, congrArg (Option.map _) added⟩
  | addVars numVars =>
      obtain ⟨le, addedLe⟩ := @RowStore.addVars_isSome soe.vars soe.le numVars room.1
      obtain ⟨eq, addedEq⟩ := @RowStore.addVars_isSome soe.vars soe.eq numVars room.2
      refine ⟨⟨le, eq, soe.vars + numVars⟩, ?_⟩
      change soe.addVars numVars = _
      rw [addVars, addedLe, addedEq]
      rfl
  | addSoe other =>
      have sameVars : soe.vars = other.vars := legal.2.symm
      obtain ⟨le, addedLe⟩ := @RowStore.addAll_isSome soe.vars soe.le
        other.le.a.get other.le.b _ formed.le room.1
      obtain ⟨eq, addedEq⟩ := @RowStore.addAll_isSome soe.vars soe.eq
        other.eq.a.get other.eq.b _ formed.eq room.2
      refine ⟨⟨le, eq, soe.vars⟩, ?_⟩
      change soe.addSoe other = _
      rw [addSoe, if_pos sameVars, RowStore.append, addedLe, RowStore.append, addedEq]
      rfl
  | addSoeSelf =>
      have noLe := RowStore.length_lists soe.vars soe.le
      have noEq := RowStore.length_lists soe.vars soe.eq
      have emptyLe : soe.le.lists soe.vars = [] := meets.1
      have emptyEq : soe.eq.lists soe.vars = [] := meets.2
      rw [emptyLe, List.length_nil] at noLe
      rw [emptyEq, List.length_nil] at noEq
      refine ⟨soe, ?_⟩
      change soe.addSoeSelf 1 = _
      rw [addSoeSelf, RowStore.appendSelf, if_neg (by omega), RowStore.appendSelf,
        if_neg (by omega)]
      rfl
  | removeLastLe | removeLastEq | removeEqNumber | sortLe => exact ⟨_, rfl⟩
  | removeLeNumber k => exact absurd meets id
  | removeLastVars numVars => exact removeLastVars_isSome legal.1 legal.2
  | resetTo nrowsLe nrowsEq ncols =>
      obtain ⟨-, -, fewCols, zero⟩ := legal
      obtain ⟨-, listsLe⟩ := @RowStore.keepFirst_spec soe.vars nrowsLe _ formed.le
      obtain ⟨-, listsEq⟩ := @RowStore.keepFirst_spec soe.vars nrowsEq _ formed.eq
      generalize leIs : (if soe.le.eqns - nrowsLe > 0 then
        soe.le.removeLast (soe.le.eqns - nrowsLe).toNat else soe.le) = le at *
      generalize eqIs : (if soe.eq.eqns - nrowsEq > 0 then
        soe.eq.removeLast (soe.eq.eqns - nrowsEq).toNat else soe.eq) = eq at *
      change ∃ after, soe.resetTo nrowsLe nrowsEq ncols = some after
      rw [resetTo_eq, leIs, eqIs]
      have fewVars : ncols ≤ soe.vars := fewCols
      split
      · refine removeLastVars_isSome (by dsimp only; omega) ?_
        have width : soe.vars - ((soe.vars : Int) - ncols).toNat = ncols := by omega
        dsimp only
        rw [width]
        change ∀ row ∈ le.lists soe.vars ++ eq.lists soe.vars, _
        rw [listsLe, listsEq]
        exact zero
      · exact ⟨_, rfl⟩
  | addWorkLe memory =>
      obtain ⟨narrow, -⟩ := meets
      change memory.cols ≤ soe.vars at narrow
      have rows : (if memory.cols < soe.vars then memory.zeroTo soe.vars
          else memory).rows = memory.rows := by
        split <;> rfl
      change ∃ after, (soe.addWorkLe memory).map Prod.fst = some after
      unfold addWorkLe
      rw [if_neg (by omega), Option.bind_some]
      dsimp only
      rw [rows]
      generalize (if memory.cols < soe.vars then memory.zeroTo soe.vars
        else memory) = used
      obtain ⟨le, added⟩ := @RowStore.addAll_isSome soe.vars soe.le
        used.work.get (fun r => some (used.const r)) memory.rows formed.le room
      rw [added]
      exact ⟨_, rfl⟩

end Steps

/-! ## Runs -/

/-- A legal operation that meets the condition. -/
def SystemStorage.Proper (before : SystemStorage) (operation : Operation)
    (after : SystemStorage) : Prop :=
  before.lists.Legal operation ∧ before.lists.Meets operation ∧
    ∃ turns, before.apply turns operation = some after

theorem SystemStorage.create_spec {eqnsLe eqnsEq vars : Nat} {soe : SystemStorage}
    (created : SystemStorage.create eqnsLe eqnsEq vars = some soe) :
    soe.WellFormed ∧ soe.lists = ⟨[], [], vars⟩ := by
  unfold create at created
  obtain ⟨le, createdLe, rest⟩ := Option.bind_eq_some_iff.mp created
  obtain ⟨eq, createdEq, made⟩ := Option.bind_eq_some_iff.mp rest
  cases made
  have side {eqns : Nat} {rows : RowStore}
      (created : RowStore.create eqns vars = some rows) :
      rows.WellFormed vars ∧ rows.lists vars = [] := by
    obtain ⟨a, matrix, rfl⟩ := Option.map_eq_some_iff.mp created
    obtain ⟨formed, r, c⟩ := Mat.create_spec matrix
    exact ⟨⟨formed, r, le_refl _, Int.natCast_nonneg _, c.ge⟩, rfl⟩
  obtain ⟨formedLe, noLe⟩ := side createdLe
  obtain ⟨formedEq, noEq⟩ := side createdEq
  exact ⟨⟨formedLe, formedEq⟩, RowLists.ext noLe noEq rfl⟩

/--
In every run whose operations meet the condition the stored rows are those of
the same run on lists, and every further such operation comes to an end.
-/
theorem runs_keepLists {eqnsLe eqnsEq vars : Nat} {soe last : SystemStorage}
    {operations : List Operation} (created : SystemStorage.create eqnsLe eqnsEq vars = some soe)
    (run : Run SystemStorage.Proper soe operations last) :
    Run RowLists.Does ⟨[], [], vars⟩ operations last.lists ∧
      ∀ operation, last.lists.Legal operation → last.lists.Meets operation →
        last.Room operation → ∃ turns after, last.apply turns operation = some after := by
  have answers {before after : SystemStorage} {operation : Operation}
      {lists : RowLists} (related : before.WellFormed ∧ before.lists = lists)
      (moved : SystemStorage.Proper before operation after) :
      ∃ lists', lists.Does operation lists' ∧ (after.WellFormed ∧ after.lists = lists') := by
    obtain ⟨formed, rfl⟩ := related
    obtain ⟨legal, meets, turns, applied⟩ := moved
    obtain ⟨formed', does⟩ := SystemStorage.apply_does formed legal meets applied
    exact ⟨_, does, formed', rfl⟩
  obtain ⟨lists, ran, formed, same⟩ := @Run.simulates _ _ _ _ _
    (fun soe lists => soe.WellFormed ∧ soe.lists = lists) answers _ _ _ run _
    (SystemStorage.create_spec created)
  subst same
  exact ⟨ran, fun operation legal meets room =>
    SystemStorage.apply_isSome formed legal meets room⟩

/-- A system without space for a row, of two variables. -/
def emptyStorage : Option SystemStorage := SystemStorage.create 0 0 2

/-- An inequality, an equation, a variable more and the equation removed. -/
def smallOperations : List Operation :=
  [.addLe (fun _ => 1) 5, .addEq (fun _ => 2) 7, .addVars 1, .removeEqNumber 0]

theorem runs_keepLists_smallSystem :
    ∃ soe last, emptyStorage = some soe ∧
      Run RowLists.Does ⟨[], [], 2⟩ smallOperations (SystemStorage.lists last) ∧
      ∀ operation, last.lists.Legal operation → last.lists.Meets operation →
        last.Room operation → ∃ turns after, last.apply turns operation = some after := by
  obtain ⟨soe, created⟩ : ∃ soe, emptyStorage = some soe := ⟨_, rfl⟩
  have run : ∃ last, Run SystemStorage.Proper soe smallOperations last := by
    cases created
    exact ⟨_, .cons ⟨trivial, trivial, 0, rfl⟩ (.cons ⟨trivial, trivial, 0, rfl⟩
      (.cons ⟨trivial, trivial, 0, rfl⟩
        (.cons ⟨Nat.one_pos, trivial, 0, rfl⟩ (.nil _))))⟩
  obtain ⟨last, run⟩ := run
  exact ⟨soe, last, created, runs_keepLists created run⟩

/-- An inequality, an equation, and the inequality removed by its number. -/
def removingOperations : List Operation :=
  [.addLe (fun _ => 1) 5, .addEq (fun _ => 2) 7, .removeLeNumber 0]

/-- The inequality stays, and the equation is gone. -/
theorem runs_not_keepLists :
    ¬∀ (eqnsLe eqnsEq vars : Nat) (soe last : SystemStorage)
      (operations : List Operation),
      SystemStorage.create eqnsLe eqnsEq vars = some soe →
      Run (fun before operation after => before.lists.Legal operation ∧
        ∃ turns, SystemStorage.apply turns before operation = some after)
        soe operations last →
      Run RowLists.Does ⟨[], [], vars⟩ operations last.lists := by
  intro all
  obtain ⟨soe, created⟩ : ∃ soe, emptyStorage = some soe := ⟨_, rfl⟩
  have run : ∃ last : SystemStorage,
      Run (fun before operation after => before.lists.Legal operation ∧
        ∃ turns, SystemStorage.apply turns before operation = some after)
        soe removingOperations last ∧ last.lists.eq = [] := by
    cases created
    exact ⟨_, .cons ⟨trivial, 0, rfl⟩ (.cons ⟨trivial, 0, rfl⟩
      (.cons ⟨Nat.one_pos, 0, rfl⟩ (.nil _))), rfl⟩
  obtain ⟨last, run, noEq⟩ := run
  have lists := all 0 0 2 soe last removingOperations created run
  have oneEq (lists : RowLists)
      (run : Run RowLists.Does ⟨[], [], 2⟩ removingOperations lists) :
      lists.eq.length = 1 := by
    cases run with
    | cons first rest =>
        cases first
        cases rest with
        | cons second rest =>
            cases second
            cases rest with
            | cons third rest =>
                cases third
                cases rest
                rfl
  have one := oneEq _ lists
  rw [noEq] at one
  cases one

end OpenUH.Lno.SystemOfEquations
