import Mathlib.Algebra.BigOperators.Fin
import Mathlib.Algebra.Order.BigOperators.Ring.Finset
import OpenUH.Foundation.Fallible
import OpenUH.Lno.DependenceAlgebra
import OpenUH.Lno.LexicographicDecomposition
import OpenUH.Lno.SingleLists

/-!
# Editing dependence lists in place

`be/lno/dep.cxx` takes vectors out of a `DEPV_LIST` while it steps through it.
`Eliminate_Non_Distance_Carried_By` first splits the compound directions of
each node: one part stays in the node, the others are appended to the list
that the loop is still stepping through.
-/

namespace OpenUH.Lno.Dependence

open Foundation.Fallible
open Foundation.Lexicographic
open Foundation.LinkedCells

variable {dim : Nat}

/-! ## The source functions -/

/-- `DEPV_LIST`. -/
abbrev DepvList (dim : Nat) := Slist (Depv dim)

/--
The loops that look for a dimension before `count` whose direction is not the
equal one.
-/
def carriedEarlier (count : Nat) (depv : Depv dim) : Bool :=
  (List.finRange dim).any fun index =>
    index.val < count && (depv index).direction != some .eq

/-- What `DEPV_LIST::Eliminate_Inner_Carried` does to a node. -/
def visitInnerCarried (depv : Depv (dim + 1)) : Option (Depv (dim + 1)) :=
  if carriedEarlier dim depv then
    some depv
  else if (depv (Fin.last dim)).direction ∈
      [some Direction.pos, some .neg, some .posNeg] then
    none
  else
    some (Function.update depv (Fin.last dim) (.setDistance 0))

/-- `DEPV_LIST::Eliminate_Inner_Carried`. -/
def eliminateInnerCarried (fuel : Nat) (list : DepvList (dim + 1)) : Option (DepvList (dim + 1)) :=
  list.removeEach visitInnerCarried fuel none list.head

/-- What `DEPV_LIST::Eliminate_Inner_Carried_Or_All_Equals` does to a node. -/
def visitInnerCarriedOrAllEquals (depv : Depv (dim + 1)) : Option (Depv (dim + 1)) :=
  if carriedEarlier dim depv then some depv else none

/-- `DEPV_LIST::Eliminate_Inner_Carried_Or_All_Equals`. -/
def eliminateInnerCarriedOrAllEquals (fuel : Nat)
    (list : DepvList (dim + 1)) : Option (DepvList (dim + 1)) :=
  list.removeEach visitInnerCarriedOrAllEquals fuel none list.head

/--
The part of a compound direction that stays in the node, and the parts that
are appended.
-/
def Direction.parts : Direction → Option (Direction × List Direction)
  | .posEq => some (.pos, [.eq])
  | .negEq => some (.neg, [.eq])
  | .posNeg => some (.neg, [.pos])
  | .star => some (.neg, [.pos, .eq])
  | .pos | .neg | .eq => none

/-- A turn of the loop over the dimensions that splits a node. -/
def splitDimension (node : Nat) (list : DepvList dim) (j : Nat) : Option (DepvList dim) :=
  if inside : j < dim then do
    let depv ← list.read node
    match (depv ⟨j, inside⟩).direction.bind Direction.parts with
    | none => some list
    | some (stays, others) => do
        let list ← list.write node
          (Function.update depv ⟨j, inside⟩ (.setDirection stays))
        others.foldlM (fun list direction => list.append
          (Function.update depv ⟨j, inside⟩ (.setDirection direction))) list
  else
    none

/-- The loop over the list that splits each node it comes to. -/
def splitNodes (i : Fin dim) :
    (fuel : Nat) → (node : Option Nat) → DepvList dim → Option (DepvList dim)
  | _, none, list => some list
  | 0, some _, _ => none
  | fuel + 1, some node, list => do
      let list ← (List.range' 0 (i.val + 1)).foldlM (splitDimension node) list
      let nextNode ← list.next node
      splitNodes i fuel nextNode list

/-- What the second loop of the elimination does to a node. -/
def visitCarriedBy (i : Fin dim) (depv : Depv dim) : Option (Depv dim) :=
  if !carriedEarlier i.val depv && !(depv i).isDistance &&
      (depv i).direction != some .eq then
    none
  else
    some depv

/-- `DEPV_LIST::Eliminate_Non_Distance_Carried_By`. -/
def eliminateNonDistanceCarriedBy (i : Fin dim) (fuel : Nat)
    (list : DepvList dim) : Option (DepvList dim) := do
  let list ← splitNodes i fuel list.head list
  list.removeEach (visitCarriedBy i) fuel none list.head

/-- `DEPV_NODE::Equal`. -/
def nodeEqual (depv other : Depv dim) : Bool :=
  (List.finRange dim).all fun index => (depv index).bits == (other index).bits

/-- The inner loop of `DEPV_LIST::Remove_Duplicates` at a node. -/
def visitEqual (depv other : Depv dim) : Option (Depv dim) :=
  if nodeEqual depv other then none else some other

/-- The outer loop of `DEPV_LIST::Remove_Duplicates`. -/
def removeDuplicatesFrom :
    (fuel : Nat) → (node : Option Nat) → DepvList dim → Option (DepvList dim)
  | _, none, list => some list
  | 0, some _, _ => none
  | fuel + 1, some node, list => do
      let depv ← list.read node
      let first ← list.next node
      let list ← list.removeEach (visitEqual depv) fuel (some node) first
      let nextNode ← list.next node
      removeDuplicatesFrom fuel nextNode list

/-- `DEPV_LIST::Remove_Duplicates`. -/
def removeDuplicates (fuel : Nat) (list : DepvList dim) : Option (DepvList dim) :=
  removeDuplicatesFrom fuel list.head list

/-! ## What the loops look for -/

theorem carriedEarlier_eq_false_iff {count : Nat} {depv : Depv dim} :
    carriedEarlier count depv = false ↔ EqualBefore count depv := by
  simp [carriedEarlier, EqualBefore]

theorem nodeEqual_iff {depv other : Depv dim} : nodeEqual depv other = true ↔ depv = other := by
  constructor
  · intro equal
    funext index
    apply Dep.bits_injective
    have same := List.all_eq_true.1 equal index (List.mem_finRange index)
    exact beq_iff_eq.1 same
  · rintro rfl
    simp [nodeEqual]

variable {vector : Fin dim → Int}

theorem listAllows_filterMap {visit : Depv dim → Option (Depv dim)} {list : List (Depv dim)} :
    ListAllows (list.filterMap visit) vector ↔
      ∃ depv ∈ list, ∃ left, visit depv = some left ∧ Depv.Allows left vector := by
  constructor
  · rintro ⟨left, member, allowed⟩
    obtain ⟨depv, inside, visited⟩ := List.mem_filterMap.1 member
    exact ⟨depv, inside, left, visited, allowed⟩
  · rintro ⟨depv, inside, left, visited, allowed⟩
    exact ⟨left, List.mem_filterMap.2 ⟨depv, inside, visited⟩, allowed⟩

/-! ## Splitting a direction -/

/-- A direction that is not compound. -/
def Dep.Simple (dep : Dep) : Prop :=
  dep.direction.bind Direction.parts = none

/-- The dimensions before a given one are not compound. -/
def SimpleBefore (count : Nat) (depv : Depv dim) : Prop :=
  ∀ index : Fin dim, index.val < count → (depv index).Simple

theorem Direction.parts_allows {direction stays : Direction} {others : List Direction}
    (compound : direction.parts = some (stays, others)) (value : Int) :
    direction.Allows value ↔ ∃ part ∈ stays :: others, part.Allows value := by
  cases direction <;> cases compound <;> simp [Allows] <;> omega

theorem Direction.parts_simple {direction stays : Direction} {others : List Direction}
    (compound : direction.parts = some (stays, others)) :
    ∀ part ∈ stays :: others, part.parts = none := by
  cases direction <;> cases compound <;> decide

theorem Dep.simple_setDirection {direction : Direction} (simple : direction.parts = none) :
    (setDirection direction).Simple := by
  rw [Simple, direction_setDirection]
  exact simple

/-- The parts of a compound direction are not constant distances. -/
theorem Dep.isDistance_setDirection {direction : Direction} (varying : direction ≠ .eq) :
    (setDirection direction).isDistance = false := by
  cases direction <;> first | decide | exact absurd rfl varying

theorem Dep.not_isDistance_of_parts
    {dep : Dep} {direction stays : Direction} {others : List Direction}
    (named : dep.direction = some direction) (compound : direction.parts = some (stays, others)) :
    dep.isDistance = false := by
  apply Bool.eq_false_iff.2
  intro constant
  rw [direction_of_distance constant, Option.some.injEq] at named
  subst named
  unfold distanceDirection at compound
  split at compound
  · cases compound
  · split at compound <;> cases compound

/-! ## What the elimination removes -/

/--
The vectors that a component described without a constant distance carries:
zero before the component, and not zero in it.
-/
def CarriedBy (i : Fin dim) (depv : Depv dim) (vector : Fin dim → Int) : Prop :=
  (depv i).isDistance = false ∧ ZeroBefore i.val vector ∧ vector i ≠ 0

/-- The vectors of a node that the elimination keeps. -/
def Keeps (i : Fin dim) (depv : Depv dim) (vector : Fin dim → Int) : Prop :=
  Depv.Allows depv vector ∧ ¬ CarriedBy i depv vector

/-- The vectors of a list that the elimination keeps. -/
def ListKeeps (i : Fin dim) (list : List (Depv dim)) (vector : Fin dim → Int) : Prop :=
  ∃ depv ∈ list, Keeps i depv vector

theorem listKeeps_cons {i : Fin dim} {depv : Depv dim} {list : List (Depv dim)} :
    ListKeeps i (depv :: list) vector ↔ Keeps i depv vector ∨ ListKeeps i list vector := by
  simp [ListKeeps]

theorem listKeeps_append {i : Fin dim} {left right : List (Depv dim)} :
    ListKeeps i (left ++ right) vector ↔ ListKeeps i left vector ∨ ListKeeps i right vector := by
  simp [ListKeeps, or_and_right, exists_or]

section Split

variable {i j : Fin dim} {depv : Depv dim} {direction stays part : Direction}
  {others : List Direction}

/-- A part carries those vectors of it that the compound direction carries. -/
theorem carriedBy_part (named : (depv j).direction = some direction)
    (compound : direction.parts = some (stays, others))
    (allowed : Depv.Allows (Function.update depv j (.setDirection part)) vector) :
    CarriedBy i (Function.update depv j (.setDirection part)) vector ↔ CarriedBy i depv vector := by
  by_cases here : i = j
  · subst here
    have component := allowed i
    rw [Function.update_self, Dep.allows_setDirection] at component
    unfold CarriedBy
    rw [Function.update_self, Dep.not_isDistance_of_parts named compound]
    by_cases equal : part = .eq
    · subst equal
      have zero : vector i = 0 := component
      simp [zero]
    · rw [Dep.isDistance_setDirection equal]
  · unfold CarriedBy
    rw [Function.update_of_ne here]

/-- The parts keep together what the compound direction keeps. -/
theorem keeps_parts (named : (depv j).direction = some direction)
    (compound : direction.parts = some (stays, others)) (vector : Fin dim → Int) :
    Keeps i depv vector ↔
      ∃ part ∈ stays :: others, Keeps i (Function.update depv j (.setDirection part)) vector := by
  have component : (depv j).Allows (vector j) ↔
      ∃ part ∈ stays :: others, part.Allows (vector j) := by
    have union : direction ≠ .pos ∧ direction ≠ .neg ∧ direction ≠ .eq := by
      refine ⟨?_, ?_, ?_⟩ <;> (rintro rfl; cases compound)
    rw [Dep.allows_iff_direction named union, Direction.parts_allows compound]
  have allowed : Depv.Allows depv vector ↔
      ∃ part ∈ stays :: others,
        Depv.Allows (Function.update depv j (.setDirection part)) vector := by
    have self : Depv.Allows depv vector ↔ (depv j).Allows (vector j) ∧
        ∀ index, index ≠ j → (depv index).Allows (vector index) := by
      rw [← allows_update, Function.update_eq_self]
    rw [self, component]
    simp only [allows_update, Dep.allows_setDirection, ← and_assoc, exists_and_right]
  unfold Keeps
  rw [allowed]
  constructor
  · rintro ⟨⟨part, member, inside⟩, kept⟩
    exact ⟨part, member, inside,
      fun carried => kept ((carriedBy_part named compound inside).1 carried)⟩
  · rintro ⟨part, member, inside, kept⟩
    exact ⟨⟨part, member, inside⟩,
      fun carried => kept ((carriedBy_part named compound inside).2 carried)⟩

end Split

/-! ## How many nodes a node becomes -/

/-- The number of parts of a dependence. -/
def Dep.numParts (dep : Dep) : Nat :=
  match dep.direction.bind Direction.parts with
  | none => 1
  | some (_, others) => others.length + 1

/-- The number of nodes that a node is split into, up to a component. -/
def weight (i : Fin dim) (depv : Depv dim) : Nat :=
  ∏ index : Fin dim, if index ≤ i then (depv index).numParts else 1

theorem Dep.numParts_simple {dep : Dep} (simple : dep.Simple) : dep.numParts = 1 := by
  unfold numParts
  rw [simple]

theorem Dep.numParts_compound {dep : Dep} {direction stays : Direction} {others : List Direction}
    (named : dep.direction = some direction) (compound : direction.parts = some (stays, others)) :
    dep.numParts = others.length + 1 := by
  unfold numParts
  rw [named, Option.bind_some, compound]

theorem Dep.numParts_pos (dep : Dep) : 0 < dep.numParts := by
  unfold numParts
  split
  · exact Nat.one_pos
  · exact Nat.succ_pos _

theorem weight_pos (i : Fin dim) (depv : Depv dim) : 0 < weight i depv := by
  apply Finset.prod_pos
  intro index _
  split
  · exact Dep.numParts_pos _
  · exact Nat.one_pos

/-- The weight is the number of parts of a component times that of the others. -/
theorem weight_update {i j : Fin dim} (within : j ≤ i) (depv : Depv dim) (dep : Dep) :
    weight i (Function.update depv j dep) =
      dep.numParts * ∏ index ∈ Finset.univ \ {j},
        if index ≤ i then (depv index).numParts else 1 := by
  rw [weight, Finset.prod_eq_mul_prod_sdiff_singleton_of_mem (Finset.mem_univ j)]
  rw [if_pos within, Function.update_self]
  apply congrArg
  apply Finset.prod_congr rfl
  intro index member
  have other : index ≠ j := by
    rintro rfl
    simp at member
  rw [Function.update_of_ne other]

/-- The parts weigh together what the compound direction weighs. -/
theorem weight_parts {i j : Fin dim} {depv : Depv dim} {direction stays : Direction}
    {others : List Direction} (within : j ≤ i) (named : (depv j).direction = some direction)
    (compound : direction.parts = some (stays, others)) :
    ((stays :: others).map fun part =>
        weight i (Function.update depv j (.setDirection part))).sum =
      weight i depv := by
  have whole := weight_update within depv (depv j)
  rw [Function.update_eq_self, Dep.numParts_compound named compound] at whole
  have single : ∀ part ∈ stays :: others,
      weight i (Function.update depv j (.setDirection part)) =
        ∏ index ∈ Finset.univ \ {j},
          if index ≤ i then (depv index).numParts else 1 := by
    intro part member
    rw [weight_update within, Dep.numParts_simple (Dep.simple_setDirection
      (Direction.parts_simple compound part member)), one_mul]
  rw [List.map_congr_left single, List.map_const', List.sum_replicate,
    List.length_cons, smul_eq_mul, whole]

/-! ## The expansion -/

/-- A node is split into the nodes of a list. -/
structure SplitInto (i : Fin dim) (whole : Depv dim)
    (parts : List (Depv dim)) : Prop where
  keeps : ∀ vector, Keeps i whole vector ↔ ListKeeps i parts vector
  weighs : (parts.map (weight i)).sum = weight i whole

theorem SplitInto.self (i : Fin dim) (whole : Depv dim) :
    SplitInto i whole [whole] where
  keeps vector := by simp [ListKeeps]
  weighs := by simp

/-- The first of the parts is split further. -/
theorem SplitInto.further {i : Fin dim} {whole depv stays : Depv dim}
    {rest others : List (Depv dim)} (split : SplitInto i whole (depv :: rest))
    (again : SplitInto i depv (stays :: others)) :
    SplitInto i whole (stays :: (rest ++ others)) where
  keeps vector := by
    rw [split.keeps, listKeeps_cons, again.keeps, listKeeps_cons,
      listKeeps_cons, listKeeps_append, or_assoc, or_comm (a := ListKeeps i others vector)]
  weighs := by
    have total := split.weighs
    have part := again.weighs
    simp only [List.map_cons, List.sum_cons, List.map_append, List.sum_append] at total part ⊢
    omega

theorem splitInto_parts {i j : Fin dim} {depv : Depv dim} {direction stays : Direction}
    {others : List Direction} (within : j ≤ i) (named : (depv j).direction = some direction)
    (compound : direction.parts = some (stays, others)) :
    SplitInto i depv ((stays :: others).map fun part =>
      Function.update depv j (.setDirection part)) where
  keeps vector := by
    rw [keeps_parts named compound]
    simp only [ListKeeps, List.mem_map, exists_exists_and_eq_and]
  weighs := by
    rw [List.map_map]
    exact weight_parts within named compound

/-- Writing a part leaves the dimensions before it simple, and makes its own so. -/
theorem SimpleBefore.succ {j : Fin dim} {depv : Depv dim} {dep : Dep}
    (simple : SimpleBefore j.val depv) (here : dep.Simple) :
    SimpleBefore (j.val + 1) (Function.update depv j dep) := by
  intro index below
  by_cases same : index = j
  · subst same
    rw [Function.update_self]
    exact here
  · rw [Function.update_of_ne same]
    apply simple
    have different : index.val ≠ j.val := fun equal => same (Fin.ext equal)
    exact Nat.lt_of_le_of_ne (Nat.le_of_lt_succ below) different

/-- Values are appended one by one. -/
theorem foldlM_append {list : DepvList dim} {cells : List (Nat × Depv dim)}
    (represents : list.Represents cells)
    (directions : List Direction) (value : Direction → Depv dim) :
    ∃ appended new, directions.foldlM
        (fun list direction => list.append (value direction)) list = some appended ∧
      appended.Represents (cells ++ new) ∧
      values new = directions.map value := by
  induction directions generalizing list cells with
  | nil =>
      refine ⟨list, [], rfl, ?_, rfl⟩
      rw [List.append_nil]
      exact represents
  | cons direction directions ih =>
      obtain ⟨middle, appends, held⟩ := represents.append (value direction)
      obtain ⟨appended, new, ran, all, same⟩ := ih held
      refine ⟨appended, (list.fresh, value direction) :: new, ?_, ?_, ?_⟩
      · rw [List.foldlM_cons, appends]
        exact ran
      · rw [List.append_cons]
        exact all
      · rw [values_cons, same, List.map_cons]

section Expansion

variable {i : Fin dim} {node : Nat} {left right : List (Nat × Depv dim)}
  {whole : Depv dim}

/-- The dimensions before a given one of a node are split. -/
def SplitUpTo (i : Fin dim) (node : Nat) (left right : List (Nat × Depv dim))
    (whole : Depv dim) (count : Nat) (list : DepvList dim) : Prop :=
  ∃ depv new, list.Represents (left ++ (node, depv) :: (right ++ new)) ∧
    SimpleBefore count depv ∧ SplitInto i whole (depv :: values new)

/-- A turn splits one more dimension. -/
theorem splitDimension_spec {count : Nat} {list : DepvList dim} (within : count < i.val + 1)
    (split : SplitUpTo i node left right whole count list) :
    ∃ next, splitDimension node list count = some next ∧
      SplitUpTo i node left right whole (count + 1) next := by
  obtain ⟨depv, new, represents, simple, parts⟩ := split
  have inside : count < dim := Nat.lt_of_lt_of_le within (Nat.succ_le_of_lt i.isLt)
  have atMost : (⟨count, inside⟩ : Fin dim) ≤ i := Nat.le_of_lt_succ within
  obtain ⟨direction, named⟩ := (depv ⟨count, inside⟩).exists_direction
  rw [splitDimension, dif_pos inside, represents.read_eq]
  simp only [Option.bind_eq_bind, Option.bind_some, named]
  cases compound : direction.parts with
  | none =>
      refine ⟨list, rfl, depv, new, represents, ?_, parts⟩
      have here : (depv ⟨count, inside⟩).Simple := by
        rw [Dep.Simple, named]
        exact compound
      have next := SimpleBefore.succ (j := ⟨count, inside⟩) simple here
      rwa [Function.update_eq_self] at next
  | some pair =>
      obtain ⟨stays, others⟩ := pair
      obtain ⟨written, writes, kept, -⟩ := represents.write
        (Function.update depv ⟨count, inside⟩ (.setDirection stays))
      obtain ⟨next, others', appends, held, same⟩ := foldlM_append kept others
        fun part => Function.update depv ⟨count, inside⟩ (.setDirection part)
      refine ⟨next, ?_,
        Function.update depv ⟨count, inside⟩ (.setDirection stays),
        new ++ others', ?_, ?_, ?_⟩
      · simp only [writes]
        exact appends
      · simpa only [List.append_assoc, List.cons_append] using held
      · exact SimpleBefore.succ (j := ⟨count, inside⟩) simple
          (Dep.simple_setDirection (Direction.parts_simple compound stays List.mem_cons_self))
      · rw [values_append, same]
        exact parts.further (splitInto_parts atMost named compound)

/-- The loop over the dimensions splits a node, and appends its other parts. -/
theorem splitNode_spec {list : DepvList dim}
    (represents : list.Represents (left ++ (node, whole) :: right)) :
    ∃ next, (List.range' 0 (i.val + 1)).foldlM (splitDimension node) list =
        some next ∧
      SplitUpTo i node left right whole (i.val + 1) next := by
  apply countingLoop_ends (SplitUpTo i node left right whole)
  · refine ⟨whole, [], ?_, nofun, SplitInto.self i whole⟩
    rw [List.append_nil]
    exact represents
  · intro count state within split
    rw [Nat.zero_add]
    exact splitDimension_spec within split

end Expansion

/-- The weight of a list of nodes. -/
def totalWeight (i : Fin dim) (cells : List (Nat × Depv dim)) : Nat :=
  ((values cells).map (weight i)).sum

/--
The loop over the list ends.  It splits every node of the list, the appended
ones included, and the parts keep together what the nodes kept.
-/
theorem splitNodes_spec {i : Fin dim} {fuel : Nat} {list : DepvList dim}
    {left cells : List (Nat × Depv dim)} (represents : list.Represents (left ++ cells))
    (enough : totalWeight i cells ≤ fuel) :
    ∃ final split, splitNodes i fuel (entry none cells) list = some final ∧
      final.Represents (left ++ split) ∧
      split.length ≤ fuel ∧
      (∀ depv ∈ values split, SimpleBefore (i.val + 1) depv) ∧
      ∀ vector, ListKeeps i (values split) vector ↔ ListKeeps i (values cells) vector := by
  induction fuel generalizing list left cells with
  | zero =>
      cases cells with
      | nil =>
          exact ⟨list, [], rfl, represents, Nat.le_refl 0, nofun,
            fun _ => Iff.rfl⟩
      | cons cell rest =>
          have positive := weight_pos i cell.2
          simp only [totalWeight, values_cons, List.map_cons, List.sum_cons]
            at enough
          omega
  | succ fuel ih =>
      cases cells with
      | nil =>
          exact ⟨list, [], rfl, represents, Nat.zero_le _, nofun,
            fun _ => Iff.rfl⟩
      | cons cell rest =>
          obtain ⟨node, whole⟩ := cell
          obtain ⟨next, ran, depv, new, held, simple, parts⟩ :=
            splitNode_spec (i := i) represents
          have lighter : totalWeight i (rest ++ new) ≤ fuel := by
            have positive := weight_pos i depv
            have weighs := parts.weighs
            simp only [totalWeight, values_append, values_cons, List.map_cons,
              List.map_append, List.sum_cons, List.sum_append]
              at enough weighs ⊢
            omega
          have moved : next.Represents ((left ++ [(node, depv)]) ++ (rest ++ new)) := by
            simpa only [List.append_assoc, List.singleton_append] using held
          obtain ⟨final, split, goesOn, all, short, simples, keeps⟩ :=
            ih moved lighter
          refine ⟨final, (node, depv) :: split, ?_, ?_, ?_, ?_, ?_⟩
          · simp only [entry, splitNodes, ran, held.next_eq, Option.bind_eq_bind, Option.bind_some]
            exact goesOn
          · simpa only [List.append_assoc, List.singleton_append] using all
          · exact Nat.succ_le_succ short
          · intro other member
            rcases List.mem_cons.1 member with rfl | later
            · exact simple
            · exact simples other later
          · intro vector
            rw [values_cons, values_cons, listKeeps_cons, listKeeps_cons,
              keeps, values_append, listKeeps_append, parts.keeps,
              listKeeps_cons, or_assoc,
              or_comm (a := ListKeeps i (values new) vector)]

/-! ## The deletion -/

/-- A simple direction other than the equal one is never zero. -/
theorem ne_zero_of_simple {dep : Dep} {value : Int} (simple : dep.Simple)
    (other : dep.direction ≠ some .eq) (allowed : dep.Allows value) :
    value ≠ 0 := by
  obtain ⟨direction, named⟩ := dep.exists_direction
  have inside := allowed.direction named
  rw [Dep.Simple, named, Option.bind_some] at simple
  rw [named] at other
  cases direction with
  | pos => exact ne_of_gt inside
  | neg => exact ne_of_lt inside
  | eq => exact absurd rfl other
  | posNeg | posEq | negEq | star => cases simple

/-- Of a node that is split, the deletion leaves what it keeps. -/
theorem visitCarriedBy_keeps {i : Fin dim} {depv : Depv dim}
    (simple : SimpleBefore (i.val + 1) depv) (vector : Fin dim → Int) :
    (∃ left, visitCarriedBy i depv = some left ∧ Depv.Allows left vector) ↔
      Keeps i depv vector := by
  have kept : visitCarriedBy i depv = none ∨ visitCarriedBy i depv = some depv := by
    unfold visitCarriedBy
    split
    · exact Or.inl rfl
    · exact Or.inr rfl
  have removed : visitCarriedBy i depv = none ↔
      EqualBefore i.val depv ∧ (depv i).isDistance = false ∧ (depv i).direction ≠ some .eq := by
    unfold visitCarriedBy
    rw [← carriedEarlier_eq_false_iff]
    simp [and_assoc]
  constructor
  · rintro ⟨left, visited, allowed⟩
    rcases kept with gone | stays
    · rw [gone] at visited
      cases visited
    · rw [stays] at visited
      cases visited
      refine ⟨allowed, ?_⟩
      rintro ⟨varying, zeros, nonzero⟩
      have equal : EqualBefore i.val depv := by
        intro index below
        by_contra other
        exact ne_zero_of_simple
          (simple index (Nat.lt_succ_of_lt below)) other
          (allowed index) (zeros index below)
      have carried : (depv i).direction ≠ some .eq := by
        intro same
        exact nonzero ((Dep.allows_of_eq same _).1 (allowed i))
      rw [removed.2 ⟨equal, varying, carried⟩] at stays
      cases stays
  · rintro ⟨allowed, notCarried⟩
    rcases kept with gone | stays
    · obtain ⟨equal, varying, other⟩ := removed.1 gone
      refine absurd ⟨varying, equal.zeroBefore allowed, ?_⟩ notCarried
      exact ne_zero_of_simple (simple i (Nat.lt_succ_self _)) other (allowed i)
    · exact ⟨depv, stays, allowed⟩

end OpenUH.Lno.Dependence
