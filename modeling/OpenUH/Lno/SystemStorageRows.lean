import OpenUH.Lno.SystemStorage

/-!
# The rows that the storage of a system holds

What the operations of `SYSTEM_OF_EQUATIONS` do to the rows of one kind, read
as a list of rows with constants.  Growth of the matrix and of the array of
constants leaves the list as it is.
-/

namespace OpenUH.Lno.SystemOfEquations

open Foundation.Arrangement

/-! ## What the operations do to the rows of one kind -/

/-- A row of coefficients with its constant. -/
abbrev ListRow := List (Option Int) × Option Int

/-- A row with further columns, which are zero. -/
def ListRow.widen (numVars : Nat) (row : ListRow) : ListRow :=
  (row.1 ++ List.replicate numVars (some 0), row.2)

/-- A row without its columns from one on. -/
def ListRow.narrow (vars : Nat) (row : ListRow) : ListRow :=
  (row.1.take vars, row.2)

/-- The columns of a row from one on are zero. -/
def ListRow.ZeroFrom (first : Nat) (row : ListRow) : Prop :=
  ∀ value ∈ row.1.drop first, value = some 0

namespace RowStore

variable {vars : Nat} {rows rows' : RowStore}

theorem length_lists (vars : Nat) (rows : RowStore) : (rows.lists vars).length = rows.eqns.toNat :=
  length_entries _ _

theorem length_of_mem_lists {row : ListRow} (member : row ∈ rows.lists vars) :
    row.1.length = vars := by
  obtain ⟨i, -, rfl⟩ := List.mem_map.mp member
  exact length_entries _ _

/-- Rows are appended, and nobody says what they hold. -/
theorem addMany_spec {numRows : Nat} (formed : rows.WellFormed vars)
    (added : rows.addMany numRows = some rows') :
    rows'.WellFormed vars ∧ rows'.eqns = rows.eqns + numRows ∧
      ∃ extra : List ListRow, extra.length = numRows ∧
        (∀ row ∈ extra, row.1.length = vars) ∧
        rows'.lists vars = rows.lists vars ++ extra := by
  obtain ⟨space, made, rfl⟩ := Option.map_eq_some_iff.mp added
  have nonneg := formed.nonneg
  have few := formed.few
  have spaced : space.WellFormed vars ∧ space.eqns = rows.eqns ∧
      space.eqns + numRows ≤ space.eqnsStored ∧
      space.lists vars = rows.lists vars := by
    split at made
    · obtain ⟨formed', eqns, stored, lists⟩ := makeSpace_spec formed made
      exact ⟨formed', eqns, by omega, lists⟩
    · cases made
      exact ⟨formed, rfl, by omega, rfl⟩
  obtain ⟨formed', eqns, fits, lists⟩ := spaced
  have more : (space.eqns + numRows).toNat = space.eqns.toNat + numRows := by omega
  have longer : ({ space with eqns := space.eqns + numRows } : RowStore).lists vars =
      space.lists vars ++ entries (fun index =>
        (entries (space.a.get (space.eqns.toNat + index)) vars,
          space.b (space.eqns.toNat + index))) numRows := by
    unfold RowStore.lists
    rw [more, entries_add]
  refine ⟨⟨formed'.formed, formed'.stored, by dsimp only; omega, by dsimp only; omega,
    formed'.wide⟩, by rw [← eqns], _, length_entries _ _, ?_, by rw [longer, lists]⟩
  intro row member
  obtain ⟨i, -, rfl⟩ := List.mem_map.mp member
  exact length_entries _ _

/-- The rows become wider. -/
theorem addVars_spec {numVars : Nat} (formed : rows.WellFormed vars)
    (added : rows.addVars vars numVars = some rows') :
    rows'.WellFormed (vars + numVars) ∧ rows'.eqns = rows.eqns ∧
      rows'.eqnsStored = rows.eqnsStored ∧
      rows'.lists (vars + numVars) = (rows.lists vars).map (ListRow.widen numVars) := by
  obtain ⟨a, grown, rfl⟩ := Option.map_eq_some_iff.mp added
  have wide := formed.wide
  have grows : a.WellFormed ∧ a.r = rows.a.r ∧ vars + numVars ≤ a.c ∧
      ∀ i < rows.a.r, ∀ j < vars, a.get i j = rows.a.get i j := by
    split at grown
    · have grows := Mat.addCols_grows formed.formed grown
      have cols := grows.cols
      exact ⟨grows.formed, grows.rows, by omega, fun i row j column =>
        grows.cells i row j (by omega)⟩
    · cases grown
      exact ⟨formed.formed, rfl, by omega, fun _ _ _ _ => rfl⟩
  obtain ⟨formedA, sameRows, columns, same⟩ := grows
  have shape := @Mat.fill_shape Int a (List.range rows.eqns.toNat)
    (List.range' vars numVars) (some 0)
  have allowed : a.c ≤ a.cx := formedA.cols
  have cells (i : Nat) (below : i < rows.eqns.toNat) (j : Nat)
      (column : j < vars + numVars) :
      (a.fill (List.range rows.eqns.toNat) (List.range' vars numVars) (some 0)).get i j =
        if j < vars then rows.a.get i j else some 0 := by
    have inside (col : Nat) (member : col ∈ List.range' vars numVars) : col < a.cx := by
      have := List.mem_range'_1.mp member
      omega
    rw [Mat.get_fill inside (by omega)]
    by_cases old : j < vars
    · rw [if_pos old, if_neg fun both => by
        have := List.mem_range'_1.mp both.2
        omega]
      exact same i (formed.row below) j old
    · rw [if_neg old, if_pos ⟨List.mem_range.mpr below, List.mem_range'_1.mpr ⟨by omega, by omega⟩⟩]
  refine ⟨⟨formedA.fill _ _ _, ?_, formed.nonneg, formed.few, ?_⟩, rfl, rfl, ?_⟩
  · rw [shape.1, sameRows]
    exact formed.stored
  · rw [shape.2.1]
    exact columns
  · unfold RowStore.lists entries
    rw [List.map_map]
    refine List.map_congr_left fun i member => ?_
    have below := List.mem_range.mp member
    refine Prod.ext ?_ rfl
    change entries _ (vars + numVars) =
      entries (rows.a.get i) vars ++ List.replicate numVars (some 0)
    rw [entries_add]
    congr 1
    · exact entries_congr fun j column => by
        rw [cells i below j (by omega), if_pos column]
    · rw [← entries_const numVars (some 0)]
      exact entries_congr fun j column => by
        rw [cells i below (vars + j) (by omega), if_neg (by omega)]

/-- The first rows are left. -/
theorem removeLast_spec {howMany : Nat} (formed : rows.WellFormed vars)
    (few : howMany ≤ (rows.lists vars).length) :
    (rows.removeLast howMany).WellFormed vars ∧
      (rows.removeLast howMany).lists vars =
        (rows.lists vars).take ((rows.lists vars).length - howMany) := by
  rw [length_lists] at few ⊢
  have nonneg := formed.nonneg
  have stored := formed.few
  have less : (rows.eqns - howMany).toNat = rows.eqns.toNat - howMany := by omega
  refine ⟨⟨formed.formed, formed.stored, ?_, ?_, formed.wide⟩, ?_⟩
  · change 0 ≤ rows.eqns - howMany
    omega
  · change rows.eqns - howMany ≤ (rows.eqnsStored : Int)
    omega
  · unfold RowStore.lists removeLast
    rw [less, take_entries _ (Nat.sub_le _ _)]

/-- What some turns of the loop have moved. -/
theorem shiftRows_spec {k turns : Nat} (formed : rows.WellFormed vars)
    (few : k + 1 + turns ≤ rows.eqns.toNat) :
    ((List.range' (k + 1) turns).foldl (shiftRow vars) rows).WellFormed vars ∧
      ((List.range' (k + 1) turns).foldl (shiftRow vars) rows).eqns = rows.eqns ∧
      (∀ i j, j < vars →
        ((List.range' (k + 1) turns).foldl (shiftRow vars) rows).a.get i j =
          rows.a.get (if k ≤ i ∧ i < k + turns then i + 1 else i) j) ∧
      ∀ i, ((List.range' (k + 1) turns).foldl (shiftRow vars) rows).b i =
        rows.b (if k ≤ i ∧ i < k + turns then i + 1 else i) := by
  induction turns with
  | zero =>
      refine ⟨formed, rfl, fun i j _ => ?_, fun i => ?_⟩
      · rw [if_neg (by omega)]
        rfl
      · rw [if_neg (by omega)]
        rfl
  | succ turns ih =>
      obtain ⟨formed', eqns, cells, constants⟩ := ih (by omega)
      rw [List.range'_1_concat, List.foldl_append]
      generalize (List.range' (k + 1) turns).foldl (shiftRow vars) rows = moved at *
      have shape := @Mat.setRow_shape Int moved.a (k + 1 + turns - 1) (List.range vars)
        (moved.a.get (k + 1 + turns))
      have inside (col : Nat) (member : col ∈ List.range vars) : col < moved.a.cx :=
        formed'.column (List.mem_range.mp member)
      refine ⟨⟨formed'.formed.setRow _ _ _, ?_, formed'.nonneg, formed'.few, ?_⟩, eqns,
        fun i j column => ?_, fun i => ?_⟩
      · exact shape.1.trans formed'.stored
      · exact shape.2.1.symm ▸ formed'.wide
      · change (moved.a.setRow _ _ _).get i j = _
        rw [Mat.get_setRow inside (formed'.column column)]
        by_cases here : i = k + 1 + turns - 1
        · rw [if_pos ⟨here, List.mem_range.mpr column⟩, cells _ j column,
            if_neg (by omega), if_pos (by omega)]
          congr 1
          omega
        · rw [if_neg fun both => here both.1, cells i j column]
          by_cases within : k ≤ i ∧ i < k + turns
          · rw [if_pos within, if_pos (by omega)]
          · rw [if_neg within, if_neg (by omega)]
      · change store moved.b (k + 1 + turns - 1) (moved.b (k + 1 + turns)) i = _
        unfold store
        by_cases here : i = k + 1 + turns - 1
        · rw [if_pos here, constants, if_neg (by omega), if_pos (by omega)]
          congr 1
          omega
        · rw [if_neg here, constants]
          by_cases within : k ≤ i ∧ i < k + turns
          · rw [if_pos within, if_pos (by omega)]
          · rw [if_neg within, if_neg (by omega)]

/-- One row is erased. -/
theorem removeNumber_spec {k : Nat} (formed : rows.WellFormed vars)
    (member : k < (rows.lists vars).length) :
    ((rows.shiftDown vars k).removeLast 1).WellFormed vars ∧
      ((rows.shiftDown vars k).removeLast 1).lists vars = (rows.lists vars).eraseIdx k := by
  rw [length_lists] at member
  obtain ⟨formed', eqns, cells, constants⟩ :=
    @shiftRows_spec vars rows k (rows.eqns.toNat - (k + 1)) formed (by omega)
  change (rows.shiftDown vars k).WellFormed vars at formed'
  obtain ⟨fewer, lists⟩ := @removeLast_spec vars (rows.shiftDown vars k) 1 formed' (by
    rw [length_lists]
    change 1 ≤ ((List.range' (k + 1) _).foldl (shiftRow vars) rows).eqns.toNat
    omega)
  refine ⟨fewer, ?_⟩
  rw [lists, length_lists]
  unfold RowStore.lists
  change (entries _ ((List.range' (k + 1) _).foldl (shiftRow vars) rows).eqns.toNat).take
    (((List.range' (k + 1) _).foldl (shiftRow vars) rows).eqns.toNat - 1) = _
  rw [eqns, take_entries _ (Nat.sub_le _ _), eraseIdx_entries _ member]
  refine entries_congr fun i below => ?_
  change (entries (((List.range' (k + 1) _).foldl (shiftRow vars) rows).a.get i) vars,
    ((List.range' (k + 1) _).foldl (shiftRow vars) rows).b i) = _
  rw [constants, entries_congr (cells i)]
  by_cases before : i < k
  · rw [if_neg (by omega), if_pos before]
  · rw [if_pos (by omega), if_neg before]

/-- Rows are appended one after the other. -/
theorem addAll_spec {row : Nat → Nat → Option Int} {b : Nat → Option Int}
    {count : Nat} (formed : rows.WellFormed vars)
    (added : (List.range count).foldlM
      (fun (rows : RowStore) r => rows.add vars (row r) (b r)) rows = some rows') :
    rows'.WellFormed vars ∧ rows'.eqns = rows.eqns + count ∧
      rows'.lists vars = rows.lists vars ++
        entries (fun r => (entries (row r) vars, b r)) count := by
  induction count generalizing rows' with
  | zero =>
      cases added
      exact ⟨formed, by omega, by simp⟩
  | succ count ih =>
      rw [List.range_succ, List.foldlM_append] at added
      obtain ⟨before, turns, last⟩ := Option.bind_eq_some_iff.mp added
      obtain ⟨formed', eqns, lists⟩ := ih turns
      rw [List.foldlM_cons] at last
      obtain ⟨after, lastTurn, done⟩ := Option.bind_eq_some_iff.mp last
      cases done
      obtain ⟨formedAfter, eqnsAfter, listsAfter⟩ := add_spec formed' lastTurn
      refine ⟨formedAfter, by omega, ?_⟩
      rw [listsAfter, lists, entries_succ, List.append_assoc]

/-! ## Sorting -/

/-- What `Sort_Le` makes small. -/
def sortKey (descending : Bool) (criteria : Nat → Int) (i : Nat) : Int :=
  if descending then -criteria i else criteria i

theorem sortSelect_eq (criteria : Nat → Int) (descending : Bool) (i count : Nat) :
    sortSelect criteria descending i count = smallest (sortKey descending criteria) i count := by
  unfold sortSelect smallest sortKey
  congr 1
  funext mx j
  cases descending
  · rfl
  · simp only [Bool.not_true, Bool.false_eq_true, if_false, if_true, gt_iff_lt, neg_lt_neg_iff]

theorem store_swap {α : Type} (array : Nat → α) (i mx : Nat) :
    store (store array i (array mx)) mx (array i) = array ∘ Equiv.swap i mx := by
  funext other
  unfold store
  rw [Function.comp_apply]
  by_cases second : other = mx
  · rw [if_pos second, second, Equiv.swap_apply_right]
  · rw [if_neg second]
    by_cases first : other = i
    · rw [if_pos first, first, Equiv.swap_apply_left]
    · rw [if_neg first, Equiv.swap_apply_of_ne_of_ne first second]

/-- The criteria and the rows stand in the same order. -/
structure OrderedBy (vars : Nat) (criteria : Nat → Int) (rows : RowStore)
    (order : Equiv.Perm Nat) (state : (Nat → Int) × RowStore) : Prop where
  formed : state.2.WellFormed vars
  eqns : state.2.eqns = rows.eqns
  criteria : state.1 = criteria ∘ order
  cells : ∀ i, ∀ j < vars, state.2.a.get i j = rows.a.get (order i) j
  constants : state.2.b = rows.b ∘ order

theorem sortTurn_orderedBy {descending : Bool} {criteria : Nat → Int} {i count : Nat}
    {order : Equiv.Perm Nat} {state : (Nat → Int) × RowStore}
    (ordered : OrderedBy vars criteria rows order state) :
    OrderedBy vars criteria rows
      (selectStep (sortKey descending criteria) count order i)
      (sortTurn descending count vars state i) := by
  have keys : sortKey descending state.1 = sortKey descending criteria ∘ order := by
    rw [ordered.criteria]
    rfl
  unfold sortTurn selectStep
  dsimp only
  rw [sortSelect_eq, keys]
  generalize smallest (sortKey descending criteria ∘ order) i count = mx
  by_cases moves : mx ≠ i
  · rw [if_pos moves]
    have formed := ordered.formed
    have inside (col : Nat) (member : col ∈ List.range vars) :
        col < state.2.a.cx := formed.column (List.mem_range.mp member)
    have first := @Mat.setRow_shape Int state.2.a i (List.range vars) (state.2.a.get mx)
    have second := @Mat.setRow_shape Int
      (state.2.a.setRow i (List.range vars) (state.2.a.get mx)) mx (List.range vars)
      (state.2.a.get i)
    refine ⟨⟨(formed.formed.setRow _ _ _).setRow _ _ _, ?_, formed.nonneg, formed.few,
      ?_⟩, ordered.eqns, ?_, fun row j column => ?_, ?_⟩
    · exact second.1.trans (first.1.trans formed.stored)
    · exact (second.2.1.trans first.2.1).symm ▸ formed.wide
    · dsimp only
      rw [store_swap, ordered.criteria, Equiv.swap_comm]
      rfl
    · change ((state.2.a.setRow _ _ _).setRow _ _ _).get row j = _
      rw [Mat.get_setRow (by rwa [first.2.2.2])
          (by rw [first.2.2.2]; exact formed.column column),
        Mat.get_setRow inside (formed.column column), Equiv.Perm.mul_apply]
      by_cases last : row = mx
      · rw [if_pos ⟨last, List.mem_range.mpr column⟩, last, Equiv.swap_apply_right]
        exact ordered.cells i j column
      · rw [if_neg fun both => last both.1]
        by_cases here : row = i
        · rw [if_pos ⟨here, List.mem_range.mpr column⟩, here, Equiv.swap_apply_left]
          exact ordered.cells mx j column
        · rw [if_neg fun both => here both.1, Equiv.swap_apply_of_ne_of_ne here last]
          exact ordered.cells row j column
    · change store (store state.2.b i (state.2.b mx)) mx (state.2.b i) = _
      rw [store_swap, ordered.constants]
      rfl
  · rw [if_neg moves, not_not.mp moves, Equiv.swap_self]
    exact ordered

theorem sortTurns_orderedBy {descending : Bool} {criteria : Nat → Int} {count : Nat}
    (formed : rows.WellFormed vars) (turns : Nat) :
    OrderedBy vars criteria rows
      (selectOrder (sortKey descending criteria) count turns)
      ((List.range turns).foldl (sortTurn descending count vars) (criteria, rows)) := by
  induction turns with
  | zero => exact ⟨formed, rfl, rfl, fun _ _ _ => rfl, rfl⟩
  | succ turns ih =>
      rw [selectOrder, List.range_succ, List.foldl_append, List.foldl_append]
      exact sortTurn_orderedBy ih

/-- Criteria in the direction asked for. -/
def Sorted (descending : Bool) (criteria : List Int) : Prop :=
  criteria.Pairwise fun earlier later =>
    if descending then later ≤ earlier else earlier ≤ later

/-- The rows move together with their criteria, which become sorted. -/
theorem sort_spec {descending : Bool} {criteria : Nat → Int} (formed : rows.WellFormed vars)
    (sorted : (Nat → Int) × RowStore)
    (run : (List.range (rows.eqns.toNat - 1)).foldl
      (sortTurn descending rows.eqns.toNat vars) (criteria, rows) = sorted) :
    sorted.2.WellFormed vars ∧ sorted.2.eqns = rows.eqns ∧
      ((entries sorted.1 rows.eqns.toNat).zip (sorted.2.lists vars)).Perm
        ((entries criteria rows.eqns.toNat).zip (rows.lists vars)) ∧
      Sorted descending (entries sorted.1 rows.eqns.toNat) := by
  have ordered := @sortTurns_orderedBy vars rows descending criteria rows.eqns.toNat
    formed (rows.eqns.toNat - 1)
  rw [run] at ordered
  have selected := selectOrder_selected (sortKey descending criteria) rows.eqns.toNat
  generalize selectOrder (sortKey descending criteria) rows.eqns.toNat
    (rows.eqns.toNat - 1) = order at ordered selected
  have zipped (criteria : Nat → Int) (row : Nat → ListRow) (count : Nat) :
      (entries criteria count).zip (entries row count) =
        entries (fun i => (criteria i, row i)) count := by
    unfold entries
    rw [List.zip_map']
  refine ⟨ordered.formed, ordered.eqns, ?_, ?_⟩
  · have rowsIs : sorted.2.lists vars = entries
        ((fun i => (entries (rows.a.get i) vars, rows.b i)) ∘ order)
        rows.eqns.toNat := by
      unfold RowStore.lists
      rw [ordered.eqns]
      refine entries_congr fun i _ => ?_
      rw [ordered.constants, entries_congr (ordered.cells i)]
      rfl
    rw [rowsIs, ordered.criteria, RowStore.lists, zipped, zipped]
    exact perm_entries selected.rearranges fun i =>
      (criteria i, entries (rows.a.get i) vars, rows.b i)
  · have keys := selected.pairwise
    rw [Sorted, ordered.criteria]
    unfold entries at keys ⊢
    rw [List.pairwise_map] at keys ⊢
    refine keys.imp fun less => ?_
    rw [Function.comp_apply, Function.comp_apply, sortKey, sortKey] at less
    cases descending
    · simpa using less
    · simpa using less

end RowStore

end OpenUH.Lno.SystemOfEquations
