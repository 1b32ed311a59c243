import OpenUH.Lno.LexicographicDecomposition

/-!
# Blockability

`DEPV_ARRAY::Is_Blockable` says whether a dependence lets a range of loops be
blocked, and `DEPV_LIST::Blockable_Part` takes the vectors that do out of a
list.
-/

namespace OpenUH.Lno.Dependence

open Foundation.Lexicographic

variable {dim : Nat}

/-! ## The source functions -/

/-- The loops from `start_depth` to `stop_depth`, within a nest. -/
structure LoopRange (dim : Nat) where
  numUnused : Nat
  startDepth : Nat
  stopDepth : Nat
  outer : numUnused ≤ startDepth
  ordered : startDepth ≤ stopDepth
  inside : stopDepth < numUnused + dim

/-- The directions that a component less than zero may have. -/
def Direction.mayBeNegative : Direction → Bool
  | .neg | .posNeg | .negEq | .star => true
  | .pos | .eq | .posEq => false

/-- The loop of `Is_Blockable` over the dimensions of one vector. -/
def blockableDims (range : LoopRange dim) (depv : Depv dim) :
    List (Fin dim) → Option Bool
  | [] => none
  | index :: rest =>
      let dir := (depv index).direction
      if index + range.numUnused < range.startDepth ∧ dir = some .pos then
        some true
      else if range.startDepth ≤ index + range.numUnused ∧
          dir.any Direction.mayBeNegative then
        some false
      else
        blockableDims range depv rest

/-- The dimensions that `Is_Blockable` looks at. -/
def LoopRange.dims (range : LoopRange dim) : List (Fin dim) :=
  (List.finRange dim).take (range.stopDepth + 1 - range.numUnused)

/-- `DEPV_ARRAY::Is_Blockable`. -/
def isBlockable (range : LoopRange dim) (array : List (Depv dim)) : Bool :=
  (array.findSome? fun depv => blockableDims range depv range.dims).getD true

/-- What `DEPV_NODE::Blockable_Part` reads and writes. -/
structure BlockablePart (dim : Nat) where
  depv : Depv dim
  dlBlock : List (Depv dim)

/-- `DEPV_Dep(Depv, start_dim) = dep`. -/
def BlockablePart.write (state : BlockablePart dim) (index : Fin dim)
    (dep : Dep) : BlockablePart dim :=
  { state with depv := Function.update state.depv index dep }

/--
`DEPV_NODE::Blockable_Part`, by the number of dimensions from `start_dim` on
that are left.
-/
def nodeBlockablePart :
    (remaining startDim : Nat) → startDim + remaining ≤ dim → BlockablePart dim → BlockablePart dim
  | 0, _, _, state => { state with dlBlock := state.dlBlock ++ [state.depv] }
  | remaining + 1, startDim, inside, state =>
      let first : Fin dim := ⟨startDim, by omega⟩
      let next (state : BlockablePart dim) : BlockablePart dim :=
        nodeBlockablePart remaining (startDim + 1) (by omega) state
      let orig := state.depv first
      let result :=
        if orig.direction = some .pos ∨ orig.direction = some .posEq ∨
            orig.direction = some .eq then
          next state
        else if orig.direction = some .posNeg then
          next (state.write first (.setDirection .pos))
        else if orig.direction = some .negEq then
          next (state.write first (.setDirection .eq))
        else if orig.direction = some .star then
          let state := next (state.write first (.setDirection .pos))
          next (state.write first (.setDirection .eq))
        else
          state
      result.write first orig

/-- `DEPV_LIST::Blockable_Part`, with the list behind it. -/
def blockablePart (range : LoopRange dim) :
    List (Depv dim) → List (Depv dim) → List (Depv dim) × List (Depv dim)
  | [], dlBlock => ([], dlBlock)
  | node :: rest, dlBlock =>
      let state := nodeBlockablePart
        (range.stopDepth + 1 - range.startDepth)
        (range.startDepth - range.numUnused)
        (by
          have := range.outer
          have := range.ordered
          have := range.inside
          omega)
        { depv := node, dlBlock := dlBlock }
      let (others, dlBlock) := blockablePart range rest state.dlBlock
      (state.depv :: others, dlBlock)

/-! ## The part of a vector that is not negative -/

/-- The components in a range of dimensions are not negative. -/
def NonnegIn (first remaining : Nat) (vector : Fin dim → Int) : Prop :=
  ∀ index : Fin dim, first ≤ index.val → index.val < first + remaining → 0 ≤ vector index

@[simp]
theorem nonnegIn_zero (first : Nat) (vector : Fin dim → Int) : NonnegIn first 0 vector := by
  intro index least less
  exact absurd less (Nat.not_lt.2 least)

/-- The first dimension of a range, and the others. -/
theorem nonnegIn_succ {remaining : Nat} {first : Fin dim} {vector : Fin dim → Int} :
    NonnegIn first (remaining + 1) vector ↔
      0 ≤ vector first ∧ NonnegIn (first + 1) remaining vector := by
  constructor
  · intro nonneg
    exact ⟨nonneg first (Nat.le_refl _) (by omega),
      fun index least less => nonneg index (by omega) (by omega)⟩
  · rintro ⟨here, others⟩ index least less
    by_cases same : index = first
    · rwa [same]
    · have apart := Fin.val_ne_of_ne same
      exact others index (by omega) (by omega)

/-- One dimension is replaced by its part that is not negative. -/
theorem allows_update_nonneg {depv : Depv dim} {first : Fin dim} {dep : Dep}
    (part : ∀ value, dep.Allows value ↔ (depv first).Allows value ∧ 0 ≤ value)
    (vector : Fin dim → Int) :
    Depv.Allows (Function.update depv first dep) vector ↔
      Depv.Allows depv vector ∧ 0 ≤ vector first := by
  have split := @allows_update dim first depv (depv first) vector
  rw [Function.update_eq_self] at split
  rw [allows_update, part, split, and_right_comm]

/-- A direction without negative values allows none. -/
theorem nonneg_of_allowed {dep : Dep} {direction : Direction} {value : Int}
    (named : dep.direction = some direction) (positive : direction.mayBeNegative = false)
    (allowed : dep.Allows value) :
    0 ≤ value := by
  have inside := allowed.direction named
  cases direction with
  | pos => exact le_of_lt inside
  | eq => exact ge_of_eq inside
  | posEq => exact inside.elim le_of_lt ge_of_eq
  | neg | posNeg | negEq | star => cases positive

/-- A direction that is a union of signs is all that a dependence says. -/
theorem allows_setDirection_of_union {dep : Dep} {direction written : Direction}
    (named : dep.direction = some direction)
    (union : direction ≠ .pos ∧ direction ≠ .neg ∧ direction ≠ .eq)
    (part : ∀ value, written.Allows value ↔ direction.Allows value ∧ 0 ≤ value) (value : Int) :
    (Dep.setDirection written).Allows value ↔ dep.Allows value ∧ 0 ≤ value := by
  rw [Dep.allows_setDirection, part, Dep.allows_iff_direction named union]

/-- A call restores the vector and appends its part that is not negative. -/
def AppendsPart (state : BlockablePart dim) (startDim remaining : Nat)
    (result : BlockablePart dim) : Prop :=
  ∃ part, result = ⟨state.depv, state.dlBlock ++ part⟩ ∧
    ∀ vector, ListAllows part vector ↔
      Depv.Allows state.depv vector ∧ NonnegIn startDim remaining vector

section Dimension

variable {state result : BlockablePart dim} (first : Fin dim) {remaining : Nat}

theorem write_self (state : BlockablePart dim) : state.write first (state.depv first) = state := by
  rw [BlockablePart.write, Function.update_eq_self]

/-- The dimension has no negative values, and is left as it is. -/
theorem AppendsPart.kept (nonneg : ∀ value, (state.depv first).Allows value → 0 ≤ value)
    (appends : AppendsPart state (first + 1) remaining result) :
    AppendsPart state first (remaining + 1) (result.write first (state.depv first)) := by
  obtain ⟨part, rfl, allows⟩ := appends
  refine ⟨part, write_self first ⟨state.depv, _⟩, fun vector => ?_⟩
  rw [allows, nonnegIn_succ]
  exact and_congr_right fun allowed =>
    (and_iff_right (nonneg _ (allowed first))).symm

/-- The dimension is replaced by its part that is not negative. -/
theorem AppendsPart.replaced {dep : Dep}
    (part : ∀ value, dep.Allows value ↔ (state.depv first).Allows value ∧ 0 ≤ value)
    (appends : AppendsPart (state.write first dep) (first + 1) remaining result) :
    AppendsPart state first (remaining + 1) (result.write first (state.depv first)) := by
  obtain ⟨block, rfl, allows⟩ := appends
  refine ⟨block, ?_, fun vector => ?_⟩
  · rw [BlockablePart.write, BlockablePart.write, Function.update_idem, Function.update_eq_self]
  · rw [allows, nonnegIn_succ, ← and_assoc]
    exact and_congr_left fun _ => allows_update_nonneg part vector

/-- The dimension is split into positive and zero. -/
theorem AppendsPart.split {middle : BlockablePart dim} {above zero : Dep}
    (part : ∀ value, above.Allows value ∨ zero.Allows value ↔
      (state.depv first).Allows value ∧ 0 ≤ value)
    (appends : AppendsPart (state.write first above) (first + 1) remaining middle)
    (appends' : AppendsPart (middle.write first zero) (first + 1) remaining result) :
    AppendsPart state first (remaining + 1) (result.write first (state.depv first)) := by
  obtain ⟨block, rfl, allows⟩ := appends
  obtain ⟨block', rfl, allows'⟩ := appends'
  refine ⟨block ++ block', ?_, fun vector => ?_⟩
  · simp only [BlockablePart.write, Function.update_idem,
      Function.update_eq_self, List.append_assoc]
  · have own := @allows_update dim first state.depv (state.depv first) vector
    rw [Function.update_eq_self] at own
    rw [listAllows_append, allows, allows', nonnegIn_succ, ← or_and_right, ← and_assoc]
    apply and_congr_left
    intro _
    simp only [BlockablePart.write, Function.update_idem]
    rw [allows_update, allows_update, ← or_and_right, part, own, and_right_comm]

end Dimension

/--
`DEPV_NODE::Blockable_Part` restores the vector, and appends the part of it
that is not negative in the dimensions left.
-/
theorem nodeBlockablePart_appends (remaining startDim : Nat) (inside : startDim + remaining ≤ dim)
    (state : BlockablePart dim) :
    AppendsPart state startDim remaining (nodeBlockablePart remaining startDim inside state) := by
  induction remaining generalizing startDim state with
  | zero => exact ⟨[state.depv], rfl, fun vector => by simp⟩
  | succ remaining ih =>
      have deeper := ih (startDim + 1) (by omega)
      let first : Fin dim := ⟨startDim, by omega⟩
      obtain ⟨direction, named⟩ := (state.depv first).exists_direction
      have direct : (state.depv ⟨startDim, by omega⟩).direction =
        some direction := named
      simp only [nodeBlockablePart, direct]
      cases direction with
      | pos | eq | posEq =>
          exact AppendsPart.kept first (fun _ => nonneg_of_allowed named rfl) (deeper state)
      | posNeg =>
          apply AppendsPart.replaced first _ (deeper (state.write first (.setDirection .pos)))
          apply allows_setDirection_of_union named (by decide)
          intro value
          simp only [Direction.Allows]
          omega
      | negEq =>
          apply AppendsPart.replaced first _ (deeper (state.write first (.setDirection .eq)))
          apply allows_setDirection_of_union named (by decide)
          intro value
          simp only [Direction.Allows]
          omega
      | star =>
          apply AppendsPart.split first _
            (deeper (state.write first (.setDirection .pos)))
            (deeper _)
          intro value
          rw [Dep.allows_setDirection, Dep.allows_setDirection,
            Dep.allows_iff_direction named (by decide)]
          simp only [Direction.Allows, true_and]
          omega
      | neg =>
          refine ⟨[], ?_, fun vector => ?_⟩
          · rw [List.append_nil]
            exact write_self first state
          · refine iff_of_false (listAllows_nil vector) ?_
            rintro ⟨allowed, nonneg⟩
            have below : vector first < 0 := (allowed first).direction named
            exact absurd (nonneg first (Nat.le_refl _) (by simp [first])) (not_le.2 below)

/-- The dimensions blocked, as components of a vector. -/
def LoopRange.Nonneg (range : LoopRange dim) (vector : Fin dim → Int) : Prop :=
  NonnegIn (range.startDepth - range.numUnused)
    (range.stopDepth + 1 - range.startDepth) vector

/-- The list is left as it was, and its part that is not negative appended. -/
theorem blockablePart_spec (range : LoopRange dim) (list dlBlock : List (Depv dim)) :
    ∃ part, blockablePart range list dlBlock = (list, dlBlock ++ part) ∧
      ∀ vector, ListAllows part vector ↔ ListAllows list vector ∧ range.Nonneg vector := by
  induction list generalizing dlBlock with
  | nil => exact ⟨[], by simp [blockablePart], by simp⟩
  | cons node rest ih =>
      obtain ⟨part, run, allows⟩ := nodeBlockablePart_appends
        (range.stopDepth + 1 - range.startDepth)
        (range.startDepth - range.numUnused)
        (by
          have := range.outer
          have := range.ordered
          have := range.inside
          omega)
        { depv := node, dlBlock := dlBlock }
      obtain ⟨others, run', allows'⟩ := ih (dlBlock ++ part)
      refine ⟨part ++ others, ?_, fun vector => ?_⟩
      · simp only [blockablePart, run, run', List.append_assoc]
      · rw [listAllows_append, allows, allows', listAllows_cons, or_and_right]
        rfl

/-! ## Vectors that do not prevent blocking -/

/-- The vectors allowed are zero or lexicographically positive. -/
def LexNonneg (depv : Depv dim) : Prop :=
  ∀ vector, Depv.Allows depv vector → Positive vector ∨ vector = 0

/-- A loop outside of the range carries every vector allowed. -/
def CarriedOutside (range : LoopRange dim) (depv : Depv dim) : Prop :=
  ∀ vector, Depv.Allows depv vector →
    ∃ index : Fin dim, index + range.numUnused < range.startDepth ∧
      ZeroBefore index vector ∧ 0 < vector index

/-- The dependence does not prevent the loops from being blocked. -/
def Permits (range : LoopRange dim) (depv : Depv dim) : Prop :=
  CarriedOutside range depv ∨ ∀ vector, Depv.Allows depv vector → range.Nonneg vector

/-- A loop outside of the range has the positive direction. -/
def HasOuterPos (range : LoopRange dim) (depv : Depv dim) : Prop :=
  ∃ index : Fin dim, index + range.numUnused < range.startDepth ∧ (depv index).direction = some .pos

/-- A loop of the range has a direction with negative components. -/
def HasNegative (range : LoopRange dim) (depv : Depv dim) : Prop :=
  ∃ index : Fin dim, range.startDepth ≤ index + range.numUnused ∧
    index + range.numUnused ≤ range.stopDepth ∧
    (depv index).direction.any Direction.mayBeNegative = true

/-- What `Is_Blockable` takes for a vector that prevents blocking. -/
def Prevents (range : LoopRange dim) (depv : Depv dim) : Prop :=
  ¬ HasOuterPos range depv ∧ HasNegative range depv

variable {range : LoopRange dim} {depv : Depv dim}

theorem exists_negative {dep : Dep} (negative : dep.direction.any Direction.mayBeNegative = true) :
    ∃ value < 0, dep.Allows value := by
  obtain ⟨direction, named, mayBe⟩ := (Option.any_eq_true _ _).1 negative
  by_cases union : direction ≠ .pos ∧ direction ≠ .neg ∧ direction ≠ .eq
  · refine ⟨-1, by decide, (Dep.allows_iff_direction named union _).2 ?_⟩
    cases direction with
    | posNeg => exact Or.inr (by decide)
    | negEq => exact Or.inl (by decide)
    | star => trivial
    | pos | eq | posEq => cases mayBe
    | neg => exact absurd rfl union.2.1
  · have below : direction = .neg := by
      cases direction with
      | neg => rfl
      | pos | eq | posEq => cases mayBe
      | posNeg | negEq | star => exact absurd (by decide) union
    subst below
    by_cases constant : dep.isDistance = true
    · refine ⟨dep.distance, ?_, by rw [Dep.Allows, if_pos constant]⟩
      exact Dep.Allows.direction (by rw [Dep.Allows, if_pos constant]) named
    · refine ⟨-1, by decide, ?_⟩
      rw [Dep.Allows, if_neg constant]
      exact ⟨.neg, named, (by decide : (-1 : Int) < 0)⟩

/-- Every dependence allows an integer. -/
theorem exists_allowed (dep : Dep) : ∃ value, dep.Allows value := by
  obtain ⟨direction, named⟩ := dep.exists_direction
  by_cases constant : dep.isDistance = true
  · exact ⟨dep.distance, by rw [Dep.Allows, if_pos constant]⟩
  · have inside : ∃ value, direction.Allows value := by
      cases direction with
      | pos => exact ⟨1, Int.one_pos⟩
      | neg => exact ⟨-1, (by decide : (-1 : Int) < 0)⟩
      | eq => exact ⟨0, rfl⟩
      | posNeg => exact ⟨1, Or.inl (by decide)⟩
      | posEq | negEq => exact ⟨0, Or.inr rfl⟩
      | star => exact ⟨0, trivial⟩
    obtain ⟨value, allowed⟩ := inside
    refine ⟨value, ?_⟩
    rw [Dep.Allows, if_neg constant]
    exact ⟨direction, named, allowed⟩

/-- A dependence without zero is positive, or may be negative. -/
theorem zero_or_negative {dep : Dep} (notPos : dep.direction ≠ some .pos) :
    dep.Allows 0 ∨ ∃ value < 0, dep.Allows value := by
  obtain ⟨direction, named⟩ := dep.exists_direction
  by_cases negative : direction.mayBeNegative = true
  · exact Or.inr (exists_negative (by rw [named]; exact negative))
  · cases direction with
    | pos => exact absurd named notPos
    | eq => exact Or.inl ((Dep.allows_of_eq named 0).2 rfl)
    | posEq =>
        exact Or.inl ((Dep.allows_iff_direction named (by decide) 0).2 (Or.inr rfl))
    | neg | posNeg | negEq | star => exact absurd rfl negative

/-- Outside of the range, a vector not carried there may be zero. -/
theorem allows_zero_outside (nonneg : LexNonneg depv) (apart : ¬ HasOuterPos range depv)
    (index : Fin dim) (outside : index + range.numUnused < range.startDepth) :
    (depv index).Allows 0 := by
  obtain ⟨place, inside⟩ := index
  induction place using Nat.strong_induction_on with
  | _ place ih =>
      have notPos : (depv ⟨place, inside⟩).direction ≠ some .pos :=
        fun positive => apart ⟨⟨place, inside⟩, outside, positive⟩
      refine (zero_or_negative notPos).resolve_right ?_
      rintro ⟨value, negative, allowed⟩
      choose other otherAllowed using fun index => exists_allowed (depv index)
      let vector : Fin dim → Int := fun index =>
        if index.val < place then 0
        else if index.val = place then value else other index
      have vectorAllowed : Depv.Allows depv vector := by
        intro index
        simp only [vector]
        split
        · exact ih index ‹_› index.isLt (Nat.lt_trans (Nat.add_lt_add_right ‹_› _) outside)
        · split
          · have same : index = ⟨place, inside⟩ := Fin.ext ‹_›
            rwa [same]
          · exact otherAllowed index
      have here : vector ⟨place, inside⟩ = value := by
        simp [vector]
      have zero : ZeroBefore place vector := by
        intro index below
        simp [vector, below]
      rcases nonneg vector vectorAllowed with positive | none
      · have above := (positive_iff_of_zeroBefore zero inside
          (by rw [here]; exact negative.ne)).1 positive
        rw [here] at above
        exact lt_asymm above negative
      · rw [none] at here
        exact negative.ne here.symm

/-- A positive direction outside of the range carries the dependence. -/
theorem carriedOutside_of_outerPos (nonneg : LexNonneg depv) (outer : HasOuterPos range depv) :
    CarriedOutside range depv := by
  obtain ⟨index, outside, positive⟩ := outer
  intro vector allowed
  have above : 0 < vector index := (allowed index).direction positive
  rcases nonneg vector allowed with ⟨first, zero, carried⟩ | none
  · refine ⟨first, ?_, fun before below => zero before below, carried⟩
    have earlier : first ≤ index := by
      by_contra later
      exact above.ne' (zero index (not_le.1 later))
    have := Fin.le_def.1 earlier
    omega
  · rw [none] at above
    exact absurd above (lt_irrefl 0)

/-- Where no component of the range may be negative, none is. -/
theorem nonneg_of_not_hasNegative (none : ¬ HasNegative range depv) {vector : Fin dim → Int}
    (allowed : Depv.Allows depv vector) :
    range.Nonneg vector := by
  intro index least less
  have outer := range.outer
  have ordered := range.ordered
  obtain ⟨direction, named⟩ := (depv index).exists_direction
  refine nonneg_of_allowed named ?_ (allowed index)
  by_contra negative
  refine none ⟨index, by omega, by omega, ?_⟩
  rw [named]
  simpa using negative

/-- The scan's notion of a vector that prevents blocking is right. -/
theorem permits_iff (nonneg : LexNonneg depv) : Permits range depv ↔ ¬ Prevents range depv := by
  constructor
  · rintro permits ⟨none, ⟨place, least, most, negative⟩⟩
    choose other otherAllowed using fun index => exists_allowed (depv index)
    obtain ⟨value, below, allowed⟩ := exists_negative negative
    let vector : Fin dim → Int := fun index =>
      if index + range.numUnused < range.startDepth then 0
      else if index = place then value else other index
    have vectorAllowed : Depv.Allows depv vector := by
      intro index
      simp only [vector]
      split
      · exact allows_zero_outside nonneg none index ‹_›
      · split
        · rename_i same
          rwa [same]
        · exact otherAllowed index
    rcases permits with carried | inside
    · obtain ⟨index, outside, _, above⟩ := carried vector vectorAllowed
      simp [vector, outside] at above
    · have outer := range.outer
      have above := inside vector vectorAllowed place (by omega) (by omega)
      simp only [vector, if_neg (Nat.not_lt.2 least), if_true] at above
      exact absurd above (not_le.2 below)
  · intro permits
    by_cases outer : HasOuterPos range depv
    · exact Or.inl (carriedOutside_of_outerPos nonneg outer)
    · exact Or.inr fun vector allowed =>
        nonneg_of_not_hasNegative (fun negative => permits ⟨outer, negative⟩) allowed

/-! ## The scan -/

/-- What the scan of a vector finds, its dimensions in order. -/
theorem blockableDims_spec {dims : List (Fin dim)} (sorted : dims.Pairwise (· < ·)) :
    (blockableDims range depv dims = some true ↔
      ∃ index ∈ dims, index + range.numUnused < range.startDepth ∧
        (depv index).direction = some .pos) ∧
    (blockableDims range depv dims = some false ↔
      (¬ ∃ index ∈ dims, index + range.numUnused < range.startDepth ∧
        (depv index).direction = some .pos) ∧
      ∃ index ∈ dims, range.startDepth ≤ index + range.numUnused ∧
        (depv index).direction.any Direction.mayBeNegative = true) := by
  induction dims with
  | nil => simp [blockableDims]
  | cons first rest ih =>
      obtain ⟨ahead, tail⟩ := List.pairwise_cons.1 sorted
      have others := ih tail
      rw [blockableDims]
      by_cases outer : first + range.numUnused < range.startDepth ∧
        (depv first).direction = some .pos
      · rw [if_pos outer]
        simp only [List.mem_cons, exists_eq_or_imp, outer, true_or, not_true,
          false_and, and_self, Option.some.injEq, Bool.true_eq_false]
      · rw [if_neg outer]
        by_cases inner : range.startDepth ≤ first + range.numUnused ∧
          (depv first).direction.any Direction.mayBeNegative = true
        · have past : ¬ ∃ index ∈ rest,
              index + range.numUnused < range.startDepth ∧ (depv index).direction = some .pos := by
            rintro ⟨index, member, outside, _⟩
            have := Fin.lt_def.1 (ahead index member)
            omega
          rw [if_pos inner]
          simp only [List.mem_cons, exists_eq_or_imp, outer, inner, past,
            or_false, not_false_iff, true_or, and_self, Option.some.injEq,
            Bool.false_eq_true]
        · rw [if_neg inner]
          simp only [List.mem_cons, exists_eq_or_imp, outer, inner, false_or]
          exact others

theorem pairwise_dims : range.dims.Pairwise (· < ·) :=
  (List.pairwise_lt_finRange dim).sublist (List.take_sublist _ _)

theorem mem_dims {index : Fin dim} :
    index ∈ range.dims ↔ index + range.numUnused ≤ range.stopDepth := by
  have outer := range.outer
  have ordered := range.ordered
  rw [LoopRange.dims, List.mem_take_iff_getElem]
  simp only [List.getElem_finRange, List.length_finRange, lt_inf_iff]
  constructor
  · rintro ⟨place, ⟨less, _⟩, rfl⟩
    simp only [Fin.val_cast]
    omega
  · intro least
    exact ⟨index, ⟨by omega, index.isLt⟩, rfl⟩

/-- The first vector with something to say decides. -/
theorem isBlockable_cons {array : List (Depv dim)} :
    isBlockable range (depv :: array) =
      (blockableDims range depv range.dims).getD (isBlockable range array) := by
  rw [isBlockable, List.findSome?_cons]
  cases blockableDims range depv range.dims with
  | none => rfl
  | some verdict => rfl

theorem verdict_true_iff :
    blockableDims range depv range.dims = some true ↔ HasOuterPos range depv := by
  have ordered := range.ordered
  rw [(blockableDims_spec pairwise_dims).1]
  apply exists_congr
  intro index
  rw [mem_dims]
  constructor
  · exact And.right
  · intro outer
    exact ⟨by omega, outer⟩

theorem verdict_false_iff :
    blockableDims range depv range.dims = some false ↔ Prevents range depv := by
  rw [(blockableDims_spec pairwise_dims).2, Prevents, HasNegative,
    ← (blockableDims_spec pairwise_dims).1, verdict_true_iff]
  apply and_congr_right
  intro _
  apply exists_congr
  intro index
  rw [mem_dims]
  exact and_left_comm

/--
A vector carried outside is not followed by one that prevents blocking, unless
one before it does.
-/
def Unmasked (range : LoopRange dim) : List (Depv dim) → Prop
  | [] => True
  | depv :: rest =>
      (HasOuterPos range depv → ∀ other ∈ rest, ¬ Prevents range other) ∧
        (Prevents range depv ∨ Unmasked range rest)

theorem unmasked_of_none {array : List (Depv dim)} (none : ∀ depv ∈ array, ¬ Prevents range depv) :
    Unmasked range array := by
  induction array with
  | nil => trivial
  | cons depv rest ih =>
      have others : ∀ other ∈ rest, ¬ Prevents range other :=
        fun other member => none other (List.mem_cons_of_mem _ member)
      exact ⟨fun _ => others, Or.inr (ih others)⟩

/-- The scan is right where no vector is masked by one carried outside. -/
theorem isBlockable_right_iff {array : List (Depv dim)} :
    (isBlockable range array = true →
        ∀ depv ∈ array, ¬ Prevents range depv) ↔ Unmasked range array := by
  induction array with
  | nil => simp [Unmasked]
  | cons depv rest ih =>
      rw [isBlockable_cons, List.forall_mem_cons, Unmasked]
      cases verdict : blockableDims range depv range.dims with
      | none =>
          have notOuter : ¬ HasOuterPos range depv := by
            rw [← verdict_true_iff, verdict]
            nofun
          have notPrevents : ¬ Prevents range depv := by
            rw [← verdict_false_iff, verdict]
            nofun
          rw [Option.getD_none, ← ih]
          simp only [notOuter, notPrevents, not_false_iff, true_and, false_imp_iff, false_or]
      | some answer =>
          cases answer with
          | true =>
              have outer := verdict_true_iff.1 verdict
              have notPrevents : ¬ Prevents range depv := fun prevents =>
                prevents.1 outer
              rw [Option.getD_some]
              simp only [outer, notPrevents, not_false_iff, true_and, forall_const, false_or]
              exact ⟨fun none => ⟨none, unmasked_of_none none⟩, And.left⟩
          | false =>
              have prevents := verdict_false_iff.1 verdict
              rw [Option.getD_some]
              exact iff_of_true (fun never => Bool.noConfusion never)
                ⟨fun outer => absurd outer prevents.1, Or.inl prevents⟩

/-! ## Where the test is right -/

/--
The test is right about an array, and the blockable part of a list is the part
that is not negative in the loops blocked.
-/
structure BlockabilityRight (range : LoopRange dim)
    (array : List (Depv dim)) : Prop where
  permits : isBlockable range array = true → ∀ depv ∈ array, Permits range depv
  part : ∀ list dlBlock : List (Depv dim), ∃ part,
    blockablePart range list dlBlock = (list, dlBlock ++ part) ∧
      ∀ vector, ListAllows part vector ↔ ListAllows list vector ∧ range.Nonneg vector

/--
For vectors that are not lexicographically negative, blockability is right just
where no vector that prevents blocking is masked by one carried outside.
-/
theorem blockabilityRight_iff (range : LoopRange dim) (array : List (Depv dim))
    (nonneg : ∀ depv ∈ array, LexNonneg depv) :
    BlockabilityRight range array ↔ Unmasked range array := by
  rw [← isBlockable_right_iff]
  constructor
  · intro right blockable depv member
    exact (permits_iff (nonneg depv member)).1
      (right.permits blockable depv member)
  · intro right
    exact {
      permits := fun blockable depv member =>
        (permits_iff (nonneg depv member)).2 (right blockable depv member)
      part := blockablePart_spec range }

/-- The two inner loops of a nest of three. -/
def innerLoops : LoopRange 3 where
  numUnused := 0
  startDepth := 1
  stopDepth := 2
  outer := Nat.zero_le _
  ordered := by decide
  inside := by decide

/-- `(+, *, *)`, which the outer loop carries. -/
def carriedDepv : Depv 3 := fun index =>
  if index = 0 then .setDirection .pos else .setDirection .star

/-- `(=, +, -)`, which prevents the inner loops from being blocked. -/
def preventingDepv : Depv 3 := fun index =>
  if index = 0 then .setDirection .eq
  else if index = 1 then .setDirection .pos
  else .setDirection .neg

theorem lexNonneg_carriedDepv : LexNonneg carriedDepv := by
  intro vector allowed
  have named : (carriedDepv 0).direction = some .pos := by decide
  have above : 0 < vector 0 := (allowed 0).direction named
  exact Or.inl ⟨0, fun before below => absurd below (Fin.not_lt_zero before), above⟩

theorem lexNonneg_preventingDepv : LexNonneg preventingDepv := by
  intro vector allowed
  have named : (preventingDepv 1).direction = some .pos := by decide
  have zero : vector 0 = 0 := (Dep.allows_of_eq (by decide) _).1 (allowed 0)
  have above : 0 < vector 1 := (allowed 1).direction named
  refine Or.inl ⟨1, fun before below => ?_, above⟩
  have first : before = 0 := by omega
  rw [first, zero]

theorem prevents_preventingDepv : Prevents innerLoops preventingDepv := by
  refine ⟨?_, 2, by decide, by decide, by decide⟩
  rintro ⟨index, outside, positive⟩
  have first : index = 0 := by
    simp only [innerLoops] at outside
    omega
  rw [first] at positive
  exact absurd positive (by decide)

/-- A vector carried outside hides one behind it that prevents blocking. -/
theorem blockability_masked :
    (∀ depv ∈ [carriedDepv, preventingDepv], LexNonneg depv) ∧
      ¬ BlockabilityRight innerLoops [carriedDepv, preventingDepv] := by
  constructor
  · intro depv member
    simp only [List.mem_cons, List.not_mem_nil, or_false] at member
    rcases member with rfl | rfl
    · exact lexNonneg_carriedDepv
    · exact lexNonneg_preventingDepv
  · intro right
    have permits := right.permits (by decide) preventingDepv (by simp)
    exact (permits_iff lexNonneg_preventingDepv).1 permits
      prevents_preventingDepv

theorem blockabilityRight_iff_preventingFirst :
    BlockabilityRight innerLoops [preventingDepv, carriedDepv] := by
  refine (blockabilityRight_iff innerLoops [preventingDepv, carriedDepv] ?_).2
    ⟨fun outer => absurd outer prevents_preventingDepv.1,
      Or.inl prevents_preventingDepv⟩
  intro depv member
  simp only [List.mem_cons, List.not_mem_nil, or_false] at member
  rcases member with rfl | rfl
  · exact lexNonneg_preventingDepv
  · exact lexNonneg_carriedDepv

end OpenUH.Lno.Dependence
