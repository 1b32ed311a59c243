import OpenUH.Lno.DependenceArrays
import OpenUH.Lno.DependenceLists

/-!
# What the edits of dependence lists remove

The loops over a dependence list end, and what they leave is the list with
exactly the intended vectors taken out: the carried ones in the eliminations,
the repeated ones in `Remove_Duplicates`.
-/

namespace OpenUH.Lno.Dependence

open Foundation.Lexicographic
open Foundation.LinkedCells

variable {dim : Nat}

/-! ## Edits -/

/--
An edit ends with a list that allows what the nodes of the original one allow,
less what it removes from each.
-/
def Edits (result : Option (DepvList dim)) (cells : List (Nat × Depv dim))
    (Removes : Depv dim → (Fin dim → Int) → Prop) : Prop :=
  ∃ edited left, result = some edited ∧ edited.Represents left ∧
    ∀ vector, ListAllows (values left) vector ↔
      ∃ depv ∈ values cells, Depv.Allows depv vector ∧ ¬ Removes depv vector

/-- A loop that visits each node edits the list as it edits each node. -/
theorem edits_removeEach {list : DepvList dim} {cells : List (Nat × Depv dim)} {fuel : Nat}
    {visit : Depv dim → Option (Depv dim)} {Removes : Depv dim → (Fin dim → Int) → Prop}
    (represents : list.Represents cells) (enough : cells.length ≤ fuel)
    (single : ∀ depv ∈ values cells, ∀ vector,
      (∃ left, visit depv = some left ∧ Depv.Allows left vector) ↔
        Depv.Allows depv vector ∧ ¬ Removes depv vector) :
    Edits (list.removeEach visit fuel none list.head) cells Removes := by
  obtain ⟨edited, ran, held⟩ := @Slist.Represents.removeEach _ _ [] _ visit _ represents enough
  refine ⟨edited, Slist.visited visit cells, ?_, held, ?_⟩
  · rw [represents.head]
    exact ran
  · intro vector
    rw [Slist.values_visited, listAllows_filterMap]
    apply exists_congr
    intro depv
    apply and_congr_right
    intro member
    exact single depv member vector

/-! ## The innermost dimension -/

/--
The vectors of an entry with equal directions before the innermost dimension
whose innermost component is not zero.
-/
def InnerCarried (depv : Depv (dim + 1)) (vector : Fin (dim + 1) → Int) : Prop :=
  EqualBefore dim depv ∧ ZeroBefore dim vector ∧ vector (Fin.last dim) ≠ 0

/-- Zero is all that the distance zero allows. -/
theorem allows_setDistance_zero (value : Int) : (Dep.setDistance 0).Allows value ↔ value = 0 :=
  Dep.allows_of_eq (by decide) value

/-- A direction that the elimination does not remove has the equal one in it. -/
theorem not_removed_iff (dep : Dep) :
    dep.direction ∉ [some Direction.pos, some .neg, some .posNeg] ↔ dep.Allows 0 := by
  obtain ⟨direction, named⟩ := dep.exists_direction
  rw [Dep.allows_zero_iff, named]
  cases direction <;> decide

/-- The vectors with the innermost component zero are those of its distance zero. -/
theorem allows_innerZero {depv : Depv (dim + 1)} (zero : (depv (Fin.last dim)).Allows 0)
    (vector : Fin (dim + 1) → Int) :
    Depv.Allows (Function.update depv (Fin.last dim) (.setDistance 0)) vector ↔
      Depv.Allows depv vector ∧ vector (Fin.last dim) = 0 := by
  rw [allows_update, allows_setDistance_zero]
  constructor
  · rintro ⟨inner, others⟩
    refine ⟨fun index => ?_, inner⟩
    by_cases last : index = Fin.last dim
    · rw [last, inner]
      exact zero
    · exact others index last
  · rintro ⟨allowed, inner⟩
    exact ⟨inner, fun index _ => allowed index⟩

theorem visitInnerCarried_allows (depv : Depv (dim + 1)) (vector : Fin (dim + 1) → Int) :
    (∃ left, visitInnerCarried depv = some left ∧ Depv.Allows left vector) ↔
      Depv.Allows depv vector ∧ ¬ InnerCarried depv vector := by
  cases earlier : carriedEarlier dim depv with
  | true =>
      have notEqual : ¬ EqualBefore dim depv := by
        rw [← carriedEarlier_eq_false_iff, earlier]
        nofun
      have kept : visitInnerCarried depv = some depv := by
        rw [visitInnerCarried, if_pos earlier]
      rw [kept]
      simp [InnerCarried, notEqual]
  | false =>
      have equal := carriedEarlier_eq_false_iff.1 earlier
      have notEarlier : ¬ carriedEarlier dim depv = true := by
        rw [earlier]
        nofun
      have carried : Depv.Allows depv vector →
          (InnerCarried depv vector ↔ vector (Fin.last dim) ≠ 0) := by
        intro allowed
        exact ⟨fun inner => inner.2.2,
          fun nonzero => ⟨equal, equal.zeroBefore allowed, nonzero⟩⟩
      rw [visitInnerCarried, if_neg notEarlier]
      by_cases gone : (depv (Fin.last dim)).direction ∈
          [some Direction.pos, some .neg, some .posNeg]
      · rw [if_pos gone]
        refine iff_of_false nofun ?_
        rintro ⟨allowed, kept⟩
        rw [carried allowed, not_not] at kept
        apply (not_removed_iff (depv (Fin.last dim))).2 _ gone
        rw [← kept]
        exact allowed (Fin.last dim)
      · rw [if_neg gone]
        simp only [Option.some.injEq, exists_eq_left']
        rw [allows_innerZero ((not_removed_iff _).1 gone)]
        apply and_congr_right
        intro allowed
        rw [carried allowed, not_not]

theorem visitInnerCarriedOrAllEquals_allows (depv : Depv (dim + 1)) (vector : Fin (dim + 1) → Int) :
    (∃ left, visitInnerCarriedOrAllEquals depv = some left ∧
        Depv.Allows left vector) ↔
      Depv.Allows depv vector ∧ ¬ EqualBefore dim depv := by
  rw [← carriedEarlier_eq_false_iff, visitInnerCarriedOrAllEquals]
  cases carriedEarlier dim depv <;> simp

/-- The eliminations at the innermost dimension edit the list in place. -/
structure InnerEliminated (list : DepvList (dim + 1))
    (cells : List (Nat × Depv (dim + 1))) (fuel : Nat) : Prop where
  carried : Edits (eliminateInnerCarried fuel list) cells InnerCarried
  orAllEquals : Edits (eliminateInnerCarriedOrAllEquals fuel list) cells
    fun depv _ => EqualBefore dim depv

theorem innerEliminated {list : DepvList (dim + 1)} {cells : List (Nat × Depv (dim + 1))}
    {fuel : Nat} (represents : list.Represents cells) (enough : cells.length ≤ fuel) :
    InnerEliminated list cells fuel where
  carried := edits_removeEach represents enough
    fun depv _ => visitInnerCarried_allows depv
  orAllEquals := edits_removeEach represents enough
    fun depv _ => visitInnerCarriedOrAllEquals_allows depv

/-! ## A dimension that carries dependences -/

/--
The elimination of what a dimension carries.  When its deletion starts, every
node of the list is split, the appended ones included.
-/
structure CarriedEliminated (i : Fin dim) (list : DepvList dim)
    (cells : List (Nat × Depv dim)) (fuel : Nat) : Prop where
  expanded : ∃ final split, splitNodes i fuel list.head list = some final ∧
    final.Represents split ∧
    ∀ depv ∈ values split, SimpleBefore (i.val + 1) depv
  edited : Edits (eliminateNonDistanceCarriedBy i fuel list) cells (CarriedBy i)

theorem carriedEliminated {i : Fin dim} {list : DepvList dim} {cells : List (Nat × Depv dim)}
    {fuel : Nat} (represents : list.Represents cells) (enough : totalWeight i cells ≤ fuel) :
    CarriedEliminated i list cells fuel := by
  obtain ⟨final, split, ran, held, short, simple, keeps⟩ :=
    @splitNodes_spec _ _ _ _ [] _ represents enough
  rw [← represents.head] at ran
  refine ⟨⟨final, split, ran, held, simple⟩, ?_⟩
  obtain ⟨edited, left, deleted, rest, allows⟩ :=
    @edits_removeEach _ _ _ _ (visitCarriedBy i) (CarriedBy i)
      held short fun depv member => visitCarriedBy_keeps (simple depv member)
  refine ⟨edited, left, ?_, rest, fun vector => ?_⟩
  · rw [eliminateNonDistanceCarriedBy, ran]
    exact deleted
  · exact (allows vector).trans (keeps vector)

/-! ## Duplicates -/

/-- Behind a node, its duplicates are removed. -/
theorem filterMap_visitEqual (depv : Depv dim) (list : List (Depv dim)) :
    list.filterMap (visitEqual depv) = list.filter (fun other => depv ≠ other) := by
  induction list with
  | nil => rfl
  | cons other list ih =>
      rw [List.filterMap_cons, List.filter_cons, ih, visitEqual]
      by_cases equal : depv = other
      · rw [if_pos (nodeEqual_iff.2 equal)]
        simp [equal]
      · rw [if_neg (mt nodeEqual_iff.1 equal)]
        simp [equal]

/-- The nodes left, each of them the first with its vector. -/
structure Deduplicated (cells left : List (Nat × Depv dim)) : Prop where
  sublist : (values left).Sublist (values cells)
  nodup : (values left).Nodup
  complete : ∀ depv ∈ values cells, depv ∈ values left

theorem removeDuplicatesFrom_spec
    {fuel : Nat} {list : DepvList dim} {front cells : List (Nat × Depv dim)}
    (represents : list.Represents (front ++ cells)) (enough : cells.length ≤ fuel) :
    ∃ edited left,
      removeDuplicatesFrom fuel (entry none cells) list = some edited ∧
      edited.Represents (front ++ left) ∧ Deduplicated cells left := by
  induction fuel generalizing list front cells with
  | zero =>
      cases List.eq_nil_of_length_eq_zero (Nat.le_zero.1 enough)
      exact ⟨list, [], rfl, represents, List.Sublist.refl _, List.nodup_nil,
        fun _ member => member⟩
  | succ fuel ih =>
      cases cells with
      | nil =>
          exact ⟨list, [], rfl, represents, List.Sublist.refl _,
            List.nodup_nil, fun _ member => member⟩
      | cons cell rest =>
          obtain ⟨node, depv⟩ := cell
          have fewer : rest.length ≤ fuel := Nat.le_of_succ_le_succ enough
          have behind : list.Represents ((front ++ [(node, depv)]) ++ rest) := by
            rw [List.append_assoc]
            exact represents
          have last : (addresses (front ++ [(node, depv)])).getLast? = some node := by
            rw [addresses_append]
            exact List.getLast?_concat
          obtain ⟨middle, inner, held⟩ := behind.removeEach (visitEqual depv) fewer
          rw [last] at inner
          have shorter : (Slist.visited (visitEqual depv) rest).length ≤ fuel :=
            (List.length_filterMap_le _ _).trans fewer
          obtain ⟨edited, left, goesOn, all, dedup⟩ := ih held shorter
          rw [List.append_assoc, List.singleton_append] at held all
          have others : values (Slist.visited (visitEqual depv) rest) =
              (values rest).filter (fun other => depv ≠ other) := by
            rw [Slist.values_visited, filterMap_visitEqual]
          refine ⟨edited, (node, depv) :: left, ?_, all, ?_, ?_, ?_⟩
          · simp only [entry_cons, removeDuplicatesFrom, represents.read_eq,
              represents.next_eq, Option.bind_eq_bind, Option.bind_some, inner,
              held.next_eq]
            exact goesOn
          · apply List.Sublist.cons_cons
            apply dedup.sublist.trans
            rw [others]
            exact List.filter_sublist
          · apply List.nodup_cons.2
            refine ⟨fun member => ?_, dedup.nodup⟩
            have inside := dedup.sublist.subset member
            rw [others, List.mem_filter] at inside
            exact absurd inside.2 (by simp)
          · intro other member
            by_cases same : other = depv
            · rw [same]
              exact List.mem_cons_self
            · apply List.mem_cons_of_mem
              apply dedup.complete
              rw [others]
              apply List.mem_filter.2
              refine ⟨(List.mem_cons.1 member).resolve_left same, ?_⟩
              simpa using Ne.symm same

/-- Duplicates are removed, and the list allows what it allowed. -/
def DuplicatesRemoved (list : DepvList dim) (cells : List (Nat × Depv dim)) (fuel : Nat) : Prop :=
  ∃ edited left, removeDuplicates fuel list = some edited ∧
    edited.Represents left ∧ (values left).Nodup ∧
    (values left).Sublist (values cells) ∧
    ∀ vector, ListAllows (values left) vector ↔ ListAllows (values cells) vector

theorem duplicatesRemoved {list : DepvList dim} {cells : List (Nat × Depv dim)} {fuel : Nat}
    (represents : list.Represents cells) (enough : cells.length ≤ fuel) :
    DuplicatesRemoved list cells fuel := by
  obtain ⟨edited, left, ran, held, dedup⟩ := @removeDuplicatesFrom_spec _ _ _ [] _ represents enough
  refine ⟨edited, left, ?_, held, dedup.nodup, dedup.sublist, fun vector => ?_⟩
  · rw [removeDuplicates, represents.head]
    exact ran
  · constructor
    · rintro ⟨depv, member, allowed⟩
      exact ⟨depv, dedup.sublist.subset member, allowed⟩
    · rintro ⟨depv, member, allowed⟩
      exact ⟨depv, dedup.complete depv member, allowed⟩

/-! ## All edits -/

/--
The edits of a list end, and each of them removes exactly what it is meant to.
-/
theorem dependenceLists_edited :
    (∀ (list : DepvList dim) (cells : List (Nat × Depv dim)),
      list.Represents cells →
      (∀ i, ∃ enough, ∀ fuel, enough ≤ fuel →
        CarriedEliminated i list cells fuel) ∧
      ∃ enough, ∀ fuel, enough ≤ fuel → DuplicatesRemoved list cells fuel) ∧
    ∀ (list : DepvList (dim + 1)) (cells : List (Nat × Depv (dim + 1))),
      list.Represents cells →
      ∃ enough, ∀ fuel, enough ≤ fuel → InnerEliminated list cells fuel := by
  constructor
  · intro list cells represents
    constructor
    · intro i
      exact ⟨totalWeight i cells, fun fuel => carriedEliminated represents⟩
    · exact ⟨cells.length, fun fuel => duplicatesRemoved represents⟩
  · intro list cells represents
    exact ⟨cells.length, fun fuel => innerEliminated represents⟩

/-- A list with the two vectors (0+, +-) and (0+, +-). -/
def twiceList : DepvList 2 where
  memory
    | 0 => some ⟨![.setDirection .posEq, .setDirection .posNeg], some 1⟩
    | 1 => some ⟨![.setDirection .posEq, .setDirection .posNeg], none⟩
    | _ => none
  head := some 0
  tail := some 1
  fresh := 2

/-- The nodes of the list. -/
def twiceCells : List (Nat × Depv 2) :=
  [(0, ![.setDirection .posEq, .setDirection .posNeg]),
    (1, ![.setDirection .posEq, .setDirection .posNeg])]

theorem represents_twiceList :
    twiceList.Represents twiceCells where
  head := rfl
  tail := rfl
  chained := ⟨rfl, rfl, trivial⟩
  nodup := by decide
  handedOut := by decide

theorem dependenceLists_edited_twiceList :
    ((∀ i, ∃ enough, ∀ fuel, enough ≤ fuel →
        CarriedEliminated i twiceList twiceCells fuel) ∧
      ∃ enough, ∀ fuel, enough ≤ fuel →
        DuplicatesRemoved twiceList twiceCells fuel) ∧
    ∃ enough, ∀ fuel, enough ≤ fuel → InnerEliminated twiceList twiceCells fuel :=
  ⟨(@dependenceLists_edited 2).1 _ _ represents_twiceList,
    (@dependenceLists_edited 1).2 _ _ represents_twiceList⟩

end OpenUH.Lno.Dependence
