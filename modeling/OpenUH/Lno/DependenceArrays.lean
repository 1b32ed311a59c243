import Mathlib.Tactic.Ring
import OpenUH.Lno.DependenceAlgebra
import OpenUH.Lno.LexicographicDecomposition

/-!
# Packing dependence lists into arrays

`be/lno/dep.cxx` packs a list of dependence vectors into an array whose
vectors are counted in eight bits.  A list of more than 255 vectors is first
collapsed into one vector, the union of the directions in every dimension;
where the whole list was lexicographically positive, the collapsed vector is
decomposed again and only its positive part is kept.

The collapsed vector is appended as if the unused dimensions, which the list
does not store, were outer dimensions that went bad.
-/

namespace OpenUH.Lno.Dependence

open Foundation.Lexicographic

variable {dim : Nat}

/-! ## The source functions -/

/-- How the packing ends without an array. -/
inductive PackingFault where
  | outOfBounds
  | assertion
  deriving DecidableEq, Repr

/-- The vectors of `DEPV_LIST::Append` for one bad outer dimension. -/
def badOuterDepv (direction : Direction) (bad : Fin dim) : Depv dim :=
  fun index => if index = bad then .setDirection direction else .setDirection .star

/-- One turn of the first loop of `DEPV_LIST::Append`. -/
def appendBadOuter (list : List (Depv dim)) (bad : Nat) : Except PackingFault (List (Depv dim)) :=
  if inside : bad < dim then
    .ok (list ++ [badOuterDepv .pos ⟨bad, inside⟩, badOuterDepv .neg ⟨bad, inside⟩])
  else
    .error .outOfBounds

/-- The last vector of `DEPV_LIST::Append`. -/
def shiftDepv (numBadOuter : Nat) (depv : Depv dim) : Depv dim :=
  fun index =>
    if index.val < numBadOuter then .setDirection .eq
    else depv ⟨index.val - numBadOuter,
      Nat.lt_of_le_of_lt (Nat.sub_le _ _) index.isLt⟩

/-- `DEPV_LIST::Append`. -/
def appendDepv (depv : Option (Depv dim)) (numBadOuter : Nat)
    (list : List (Depv dim)) : Except PackingFault (List (Depv dim)) :=
  if numBadOuter = 0 then
    .ok (list ++ depv.toList)
  else do
    let list ← (List.range numBadOuter).foldlM appendBadOuter list
    .ok (list ++ (depv.map (shiftDepv numBadOuter)).toList)

/-- `DEP_UnionDirection` with the direction of another dependence. -/
def Dep.unionWith (dep other : Dep) : Dep :=
  other.direction.elim dep dep.unionDirection

/-- The collapsing loop of `Create_DEPV_ARRAY`. -/
def collapseInto (tmp depv : Depv dim) : Depv dim :=
  fun index => (tmp index).unionWith (depv index)

/-- `Is_Lexpos`, by the number of dimensions that are left. -/
def isLexposFrom (depv : Depv dim) : (remaining : Nat) → remaining ≤ dim → Bool
  | 0, _ => true
  | remaining + 1, inside =>
      let direction := (depv ⟨dim - (remaining + 1),
        Nat.sub_lt (Nat.zero_lt_of_lt inside) remaining.succ_pos⟩).direction
      if direction = some .eq ∨ direction = some .posEq then
        isLexposFrom depv remaining (Nat.le_of_succ_le inside)
      else
        direction = some .pos

/-- `DEPV_LIST::Is_Lexpos`. -/
def isLexpos (list : List (Depv dim)) : Bool :=
  list.all fun depv => isLexposFrom depv dim (Nat.le_refl dim)

/-- The directions that `Contains_All_Equals` and `Shorten_To_Dep` accept. -/
def Direction.hasEqual : Direction → Bool
  | .eq | .posEq | .negEq | .star => true
  | .pos | .neg | .posNeg => false

/-- `DEPV_LIST::Contains_All_Equals`. -/
def containsAllEquals (list : List (Depv dim)) : Bool :=
  list.any fun depv =>
    (List.finRange dim).all fun index =>
      (depv index).direction.any Direction.hasEqual

/-- `DEPV_ARRAY`, with the bounds of its packed fields. -/
structure DepvArray (dim : Nat) where
  vectors : List (Depv dim)
  numUnusedDim : Nat
  few : vectors.length ≤ 255
  dimFits : dim ≤ 15
  unusedFits : numUnusedDim ≤ 15

/-- The list that `Create_DEPV_ARRAY` packs in place of a long one. -/
def collapse (numUnusedDim : Nat) (list : List (Depv dim)) :
    Except PackingFault (List (Depv dim)) :=
  match list with
  | [] => .ok []
  | first :: _ => do
      let tmp := list.foldl collapseInto first
      let newDepvlist ← appendDepv (some tmp) numUnusedDim []
      if isLexpos list then
        .ok (lexPosDecompose (containsAllEquals list) false newDepvlist [] []).pos
      else
        .ok newDepvlist

/-- The end of `Create_DEPV_ARRAY`.  The null pointer is no array. -/
def packDepvs (numUnusedDim : Nat) (list : List (Depv dim)) :
    Except PackingFault (Option (DepvArray dim)) :=
  if few : list.length ≤ 255 then
    if list = [] then
      .ok none
    else if fits : dim ≤ 15 ∧ numUnusedDim ≤ 15 then
      .ok (some ⟨list, numUnusedDim, few, fits.1, fits.2⟩)
    else
      .error .assertion
  else
    .error .assertion

/-- `Create_DEPV_ARRAY`. -/
def createDepvArray (numUnusedDim : Nat) (list : List (Depv dim)) :
    Except PackingFault (Option (DepvArray dim)) :=
  if 255 < list.length then
    collapse numUnusedDim list >>= packDepvs numUnusedDim
  else
    packDepvs numUnusedDim list

namespace DepvArray

/-- The vector loop of `DEPV_ARRAY::Union`. -/
def unionInto (depv tmp : Depv dim) : Depv dim :=
  fun index =>
    if (tmp index).isDistance = false ∨ (depv index).isDistance = false ∨
        (depv index).distance ≠ (tmp index).distance then
      (depv index).unionWith (tmp index)
    else
      depv index

/-- `DEPV_ARRAY::Union`, which reads the first vector of the array. -/
def union (array : DepvArray dim) : Option (Depv dim) :=
  match array.vectors with
  | [] => none
  | first :: rest => some (rest.foldl unionInto first)

/-- The dimensions that `DEPV_ARRAY::Shorten` keeps. -/
def shortenDepv (numDim : Nat) (depv : Depv dim) : Depv (min numDim dim) :=
  fun index => depv (index.castLE (Nat.min_le_right numDim dim))

/-- `DEPV_ARRAY::Shorten`; a small enough array is copied. -/
def shorten (numDim : Nat) (array : DepvArray dim) :
    Except PackingFault (DepvArray (min numDim dim)) :=
  if numDim = 0 then
    .error .assertion
  else
    .ok
      { vectors := array.vectors.map (shortenDepv numDim)
        numUnusedDim := array.numUnusedDim
        few := by rw [List.length_map]; exact array.few
        dimFits := (Nat.min_le_right _ _).trans array.dimFits
        unusedFits := array.unusedFits }

/-- All dimensions of a vector but the innermost may be equal. -/
def goodVector (depv : Depv (dim + 1)) : Bool :=
  (List.finRange dim).all fun index =>
    (depv index.castSucc).direction.any Direction.hasEqual

/-- One turn of the loop of `DEPV_ARRAY::Shorten_To_Dep`. -/
def shortenInto (dep : Option Dep) (depv : Depv (dim + 1)) : Option Dep :=
  if goodVector depv then
    let tmp := depv (Fin.last dim)
    match dep with
    | none => some tmp
    | some dep =>
        if tmp.isDistance then
          if dep.isDistance = false ∨ dep.distance ≠ tmp.distance then
            some (dep.unionWith tmp)
          else
            some dep
        else
          some (dep.unionWith tmp)
  else
    dep

/-- `DEPV_ARRAY::Shorten_To_Dep`. -/
def shortenToDep (array : DepvArray (dim + 1)) : Option Dep :=
  array.vectors.foldl shortenInto none

end DepvArray

/-! ## Directions -/

/-- A dependence allows zero where its direction has the equal one in it. -/
theorem Dep.allows_zero_iff (dep : Dep) :
    dep.Allows 0 ↔ dep.direction.any Direction.hasEqual = true := by
  obtain ⟨direction, named⟩ := dep.exists_direction
  have direct : dep.Allows 0 → direction.Allows 0 :=
    fun allowed => allowed.direction named
  rw [named, Option.any_some]
  cases direction with
  | eq => simp [Dep.allows_of_eq named, Direction.hasEqual]
  | posEq | negEq | star =>
      simp [Dep.allows_iff_direction named, Direction.hasEqual, Direction.Allows]
  | pos | neg =>
      exact iff_of_false (fun allowed => lt_irrefl _ (direct allowed)) Bool.false_ne_true
  | posNeg =>
      exact iff_of_false
        (fun allowed => (direct allowed).elim (lt_irrefl _) (lt_irrefl _))
        Bool.false_ne_true

/-- A union with another dependence allows what the two directions allow. -/
theorem Dep.allows_unionWith_iff {dep other : Dep} {own direction : Direction}
    (named : dep.direction = some own) (otherNamed : other.direction = some direction)
    (value : Int) :
    (dep.unionWith other).Allows value ↔ own.Allows value ∨ direction.Allows value := by
  rw [Dep.unionWith, otherNamed]
  exact Dep.allows_unionDirection_iff named direction value

theorem Dep.direction_unionWith {dep other : Dep} {own direction : Direction}
    (named : dep.direction = some own) (otherNamed : other.direction = some direction) :
    (dep.unionWith other).direction = some (own.union direction) := by
  rw [Dep.unionWith, otherNamed]
  exact Dep.direction_unionDirection named direction

theorem Dep.allows_unionWith {dep other : Dep} {value : Int}
    (allowed : dep.Allows value ∨ other.Allows value) :
    (dep.unionWith other).Allows value := by
  obtain ⟨own, named⟩ := dep.exists_direction
  obtain ⟨direction, otherNamed⟩ := other.exists_direction
  rw [Dep.allows_unionWith_iff named otherNamed]
  exact allowed.imp (fun inside => inside.direction named)
    (fun inside => inside.direction otherNamed)

/-! ## The collapsed vector -/

/-- The direction of one dimension of some vector of a list. -/
def SomeDirection (list : List (Depv dim)) (index : Fin dim) (value : Int) : Prop :=
  ∃ depv ∈ list, ∃ direction,
    (depv index).direction = some direction ∧ direction.Allows value

/-- Once a first union is made, the rest add their directions. -/
theorem foldl_collapseInto_allows (rest : List (Depv dim)) (index : Fin dim) (value : Int) :
    ∀ tmp : Depv dim, ∀ own,
      (tmp index).direction = some own →
      ((tmp index).Allows value ↔ own.Allows value) →
      ((rest.foldl collapseInto tmp index).Allows value ↔
        own.Allows value ∨ SomeDirection rest index value) := by
  induction rest with
  | nil =>
      intro tmp own named whole
      simp [SomeDirection, whole]
  | cons depv rest ih =>
      intro tmp own named whole
      obtain ⟨direction, otherNamed⟩ := (depv index).exists_direction
      rw [List.foldl_cons,
        ih (collapseInto tmp depv) (own.union direction)
          (Dep.direction_unionWith named otherNamed)
          ((Dep.allows_unionWith_iff named otherNamed value).trans
            (own.union_allows direction value).symm),
        own.union_allows, or_assoc]
      apply or_congr_right
      simp [SomeDirection, otherNamed]

/--
The collapsed vector allows in every dimension what the direction of some
vector of the list allows there.
-/
theorem collapsed_allows (first : Depv dim) (rest : List (Depv dim))
    (index : Fin dim) (value : Int) :
    ((first :: rest).foldl collapseInto first index).Allows value ↔
      SomeDirection (first :: rest) index value := by
  obtain ⟨own, named⟩ := (first index).exists_direction
  have united := Dep.direction_unionWith named named
  have whole := Dep.allows_unionWith_iff named named value
  rw [own.union_self] at united
  rw [List.foldl_cons,
    foldl_collapseInto_allows rest index value (collapseInto first first) own
      united (whole.trans (or_self_iff))]
  simp [SomeDirection, named]

/-! ## Lexicographically positive lists -/

theorem isLexposFrom_succ (depv : Depv dim) (remaining : Nat) (inside : remaining + 1 ≤ dim)
    (within : dim - (remaining + 1) < dim) :
    isLexposFrom depv (remaining + 1) inside =
      if (depv ⟨dim - (remaining + 1), within⟩).direction = some .eq ∨
          (depv ⟨dim - (remaining + 1), within⟩).direction = some .posEq then
        isLexposFrom depv remaining (Nat.le_of_succ_le inside)
      else
        (depv ⟨dim - (remaining + 1), within⟩).direction = some .pos :=
  rfl

variable {vector : Fin dim → Int}

theorem isLexposFrom_spec {depv : Depv dim} (allowed : Depv.Allows depv vector) (remaining : Nat) :
    ∀ inside : remaining ≤ dim,
      isLexposFrom depv remaining inside = true →
      ZeroBefore (dim - remaining) vector → Positive vector ∨ vector = 0 := by
  induction remaining with
  | zero =>
      intro inside lexpos zero
      exact Or.inr zero.eq_zero
  | succ remaining ih =>
      intro inside lexpos zero
      have within : dim - (remaining + 1) < dim := by omega
      have next : dim - (remaining + 1) + 1 = dim - remaining := by omega
      have here := allowed ⟨dim - (remaining + 1), within⟩
      have deeper : isLexposFrom depv remaining (by omega) = true →
          vector ⟨dim - (remaining + 1), within⟩ = 0 → Positive vector ∨ vector = 0 := by
        intro lexpos none
        exact ih _ lexpos (next ▸ zero.succ within none)
      have settled : 0 < vector ⟨dim - (remaining + 1), within⟩ → Positive vector ∨ vector = 0 := by
        intro above
        exact Or.inl ((positive_iff_of_zeroBefore zero within above.ne').2 above)
      rw [isLexposFrom_succ depv remaining inside within] at lexpos
      split at lexpos
      case isTrue equal =>
        rcases equal with named | named
        · exact deeper lexpos (here.direction named)
        · exact (here.direction named).elim settled (deeper lexpos)
      case isFalse =>
        exact settled (here.direction (of_decide_eq_true lexpos))

variable {list : List (Depv dim)}

/-- A list that passes allows positive vectors and zero only. -/
theorem isLexpos_spec (lexpos : isLexpos list = true) (allowed : ListAllows list vector) :
    Positive vector ∨ vector = 0 := by
  obtain ⟨depv, member, inside⟩ := allowed
  exact isLexposFrom_spec inside dim (Nat.le_refl dim)
    (List.all_eq_true.1 lexpos depv member)
    (fun index below => absurd below (by omega))

theorem containsAllEquals_iff :
    containsAllEquals list = true ↔ ListAllows list 0 := by
  simp [containsAllEquals, ListAllows, Depv.Allows, Dep.allows_zero_iff]

/-! ## What the appended vectors allow -/

theorem allows_badOuterDepv {direction : Direction} {bad : Fin dim} :
    Depv.Allows (badOuterDepv direction bad) vector ↔ direction.Allows (vector bad) := by
  constructor
  · intro allowed
    have here := allowed bad
    rwa [badOuterDepv, if_pos rfl, Dep.allows_setDirection] at here
  · intro allowed index
    rw [badOuterDepv]
    split
    next same =>
        rw [same, Dep.allows_setDirection]
        exact allowed
    next =>
        rw [Dep.allows_setDirection]
        trivial

variable {numBadOuter : Nat}

theorem allows_shiftDepv {depv : Depv dim} :
    Depv.Allows (shiftDepv numBadOuter depv) vector ↔
      ZeroBefore numBadOuter vector ∧
        ∀ index : Fin dim, numBadOuter ≤ index.val →
          (depv ⟨index.val - numBadOuter,
            Nat.lt_of_le_of_lt (Nat.sub_le _ _) index.isLt⟩).Allows (vector index) := by
  constructor
  · intro allowed
    constructor
    · intro index below
      have here := allowed index
      rwa [shiftDepv, if_pos below, Dep.allows_setDirection] at here
    · intro index above
      have here := allowed index
      rwa [shiftDepv, if_neg (Nat.not_lt.2 above)] at here
  · rintro ⟨zero, others⟩ index
    rw [shiftDepv]
    split
    next below =>
        rw [Dep.allows_setDirection]
        exact zero index below
    next above => exact others index (Nat.not_lt.1 above)

/-! ## The size of a decomposition -/

/--
A vector that is equal in its first dimensions and settled at a later one
has a positive part for each dimension between, and one more.
-/
theorem nodeLexPosDecompose_length (keepPosEquals : Bool) (remaining : Nat) :
    ∀ (skip stop : Nat) (inside : remaining ≤ dim) (state : Decomposition dim),
      skip ≤ stop → stop ≤ remaining →
      (∀ index : Fin dim, dim - remaining ≤ index.val →
        index.val < dim - remaining + skip → (state.depv index).direction = some .eq) →
      (∀ index : Fin dim, index.val = dim - remaining + stop →
        (state.depv index).direction.any Direction.hasEqual = false) →
      (nodeLexPosDecompose keepPosEquals false remaining inside
        state).pos.length ≤ state.pos.length + (stop - skip + 1) := by
  induction remaining with
  | zero =>
      intro skip stop inside state ordered short equal settled
      rw [nodeLexPosDecompose]
      split <;> simp
  | succ remaining deeper =>
      intro skip stop inside state ordered short equal settled
      obtain ⟨first, firstIs⟩ : ∃ first : Fin dim, dim - (remaining + 1) = first.val :=
        ⟨⟨dim - (remaining + 1), by omega⟩, rfl⟩
      have next : dim - remaining = first.val + 1 := by omega
      rw [firstIs] at equal settled
      have further : ∀ state' : Decomposition dim,
          (∀ index, index ≠ first → state'.depv index = state.depv index) →
          0 < stop →
          (nodeLexPosDecompose keepPosEquals false remaining (by omega)
            state').pos.length ≤ state'.pos.length + (stop - 1 - (skip - 1) + 1) := by
        intro state' same some_
        refine deeper (skip - 1) (stop - 1) (by omega) state' (by omega)
          (by omega) (fun index above below => ?_) (fun index at_ => ?_)
        · have other : index ≠ first := fun equal => by
            rw [equal] at above
            omega
          rw [same index other]
          exact equal index (by omega) (by omega)
        · have other : index ≠ first := fun equal => by
            rw [equal] at at_
            omega
          rw [same index other]
          exact settled index (by omega)
      have updated : ∀ dep index, index ≠ first →
          Function.update state.depv first dep index = state.depv index :=
        fun dep index other => Function.update_of_ne other _ _
      have unsettled : (state.depv first).direction.any Direction.hasEqual = true → 0 < stop := by
        intro has
        by_contra none
        rw [settled first (by omega)] at has
        exact Bool.noConfusion has
      have skipped : (state.depv first).direction ≠ some .eq → skip = 0 := by
        intro other
        by_contra some_
        exact other (equal first (Nat.le_refl _) (by omega))
      obtain ⟨direction, named⟩ := Dep.exists_direction (state.depv first)
      rw [nodeLexPosDecompose_succ keepPosEquals false inside state firstIs]
      rw [named] at unsettled skipped
      cases direction with
      | pos | neg | posNeg => simp [named]
      | posEq | star =>
          have least := unsettled rfl
          have none := skipped (by decide)
          simp only [named, reduceCtorEq, Option.some.injEq, if_true, if_false]
          refine (further _ (updated _) least).trans ?_
          rw [List.length_append, List.length_singleton]
          omega
      | negEq =>
          have least := unsettled rfl
          have none := skipped (by decide)
          simp only [named, reduceCtorEq, Option.some.injEq, if_true, if_false]
          refine (further _ (updated _) least).trans ?_
          dsimp only
          omega
      | eq =>
          have least := unsettled rfl
          simp only [named, reduceCtorEq, Option.some.injEq, if_false]
          refine (further state (fun _ _ => rfl) least).trans ?_
          omega

/-- A list has at most so many vectors in its positive part. -/
def PosLength (list : List (Depv dim)) (bound : Nat) : Prop :=
  ∀ keepPosEquals before before',
    (lexPosDecompose keepPosEquals false list before before').pos.length ≤ before.length + bound

theorem lexPosDecompose_append_pos (keepPosEquals keepNegEquals : Bool)
    (list list' : List (Depv dim)) :
    ∀ before before',
      (lexPosDecompose keepPosEquals keepNegEquals (list ++ list') before before').pos =
      (lexPosDecompose keepPosEquals keepNegEquals list'
        (lexPosDecompose keepPosEquals keepNegEquals list before before').pos
        (lexPosDecompose keepPosEquals keepNegEquals list before before').neg).pos := by
  induction list with
  | nil =>
      intro before before'
      rfl
  | cons depv list ih =>
      intro before before'
      simp only [List.cons_append, lexPosDecompose]
      exact ih _ _

theorem PosLength.append {list list' : List (Depv dim)} {bound bound' : Nat}
    (left : PosLength list bound) (right : PosLength list' bound') :
    PosLength (list ++ list') (bound + bound') := by
  intro keepPosEquals before before'
  rw [lexPosDecompose_append_pos]
  refine (right keepPosEquals _ _).trans ?_
  have first := left keepPosEquals before before'
  omega

theorem posLength_nil : PosLength ([] : List (Depv dim)) 0 := by
  intro keepPosEquals before before'
  exact Nat.le_refl _

theorem posLength_singleton {depv : Depv dim} {skip stop : Nat}
    (ordered : skip ≤ stop) (short : stop ≤ dim) (equal : EqualBefore skip depv)
    (settled : ∀ index : Fin dim, index.val = stop →
      (depv index).direction.any Direction.hasEqual = false) :
    PosLength [depv] (stop - skip + 1) := by
  intro keepPosEquals before before'
  refine nodeLexPosDecompose_length keepPosEquals dim skip stop
    (Nat.le_refl dim) { depv := depv, pos := before, neg := before' } ordered short
    (fun index _ below => equal index (by omega))
    (fun index at_ => settled index (by omega))

theorem posLength_badOuterDepv {direction : Direction} {bad : Fin dim}
    (settled : direction.hasEqual = false) :
    PosLength [badOuterDepv direction bad] (bad.val + 1) := by
  refine posLength_singleton (Nat.zero_le _) bad.isLt.le
    (fun index below => absurd below (Nat.not_lt_zero _)) fun index same => ?_
  rw [badOuterDepv, if_pos (Fin.ext same), Dep.direction_setDirection]
  exact settled

theorem posLength_shiftDepv (inside : numBadOuter ≤ dim) (depv : Depv dim) :
    PosLength [shiftDepv numBadOuter depv] (dim - numBadOuter + 1) := by
  refine posLength_singleton inside (Nat.le_refl dim) (fun index below => ?_)
    (fun index same => absurd index.isLt (by omega))
  rw [shiftDepv, if_pos below, Dep.direction_setDirection]

/-! ## The appended list -/

/-- What the first loop of `DEPV_LIST::Append` has appended. -/
structure BadOuters (numBadOuter : Nat) (made : List (Depv dim)) : Prop where
  length : made.length = 2 * numBadOuter
  posLength : PosLength made (numBadOuter * (numBadOuter + 1))
  allows : ∀ vector, ListAllows made vector ↔
    ∃ index : Fin dim, index.val < numBadOuter ∧ vector index ≠ 0

theorem badOuters_zero :
    BadOuters 0 ([] : List (Depv dim)) where
  length := rfl
  posLength := posLength_nil
  allows := by simp

theorem BadOuters.succ {made : List (Depv dim)}
    (outers : BadOuters numBadOuter made) (inside : numBadOuter < dim) :
    BadOuters (numBadOuter + 1)
      (made ++ [badOuterDepv .pos ⟨numBadOuter, inside⟩,
        badOuterDepv .neg ⟨numBadOuter, inside⟩]) where
  length := by
    rw [List.length_append, outers.length]
    rfl
  posLength := by
    have pos : PosLength [badOuterDepv .pos ⟨numBadOuter, inside⟩]
        (numBadOuter + 1) := posLength_badOuterDepv rfl
    have neg : PosLength [badOuterDepv .neg ⟨numBadOuter, inside⟩]
        (numBadOuter + 1) := posLength_badOuterDepv rfl
    have total : numBadOuter * (numBadOuter + 1) +
        ((numBadOuter + 1) + (numBadOuter + 1)) =
          (numBadOuter + 1) * (numBadOuter + 1 + 1) := by ring
    rw [← total]
    exact outers.posLength.append (pos.append neg)
  allows := by
    intro vector
    rw [listAllows_append, outers.allows, listAllows_cons, listAllows_cons,
      allows_badOuterDepv, allows_badOuterDepv]
    constructor
    · rintro (⟨index, below, nonzero⟩ | above | below | none)
      · exact ⟨index, Nat.lt_succ_of_lt below, nonzero⟩
      · exact ⟨_, Nat.lt_succ_self _, (show (0 : Int) < _ from above).ne'⟩
      · exact ⟨_, Nat.lt_succ_self _, (show _ < (0 : Int) from below).ne⟩
      · exact absurd none (listAllows_nil vector)
    · rintro ⟨index, below, nonzero⟩
      rcases Nat.lt_succ_iff_lt_or_eq.1 below with earlier | same
      · exact Or.inl ⟨index, earlier, nonzero⟩
      · have here : index = ⟨numBadOuter, inside⟩ := Fin.ext same
        rw [here] at nonzero
        rcases lt_or_gt_of_ne nonzero with negative | positive
        · exact Or.inr (Or.inr (Or.inl negative))
        · exact Or.inr (Or.inl positive)

/-- The first loop appends two vectors for each bad outer dimension. -/
theorem foldlM_appendBadOuter (inside : numBadOuter ≤ dim) (list : List (Depv dim)) :
    ∃ made, (List.range numBadOuter).foldlM appendBadOuter list =
        Except.ok (list ++ made) ∧
      BadOuters numBadOuter made := by
  induction numBadOuter with
  | zero => exact ⟨[], by simp [pure, Except.pure], badOuters_zero⟩
  | succ numBadOuter ih =>
      obtain ⟨made, run, outers⟩ := ih (by omega)
      refine ⟨_, ?_, outers.succ inside⟩
      rw [List.range_succ, List.foldlM_append, run]
      simp only [List.foldlM_cons, List.foldlM_nil, bind, Except.bind,
        appendBadOuter, dif_pos (show numBadOuter < dim from inside), pure,
        Except.pure, List.append_assoc]

/-- With more bad outer dimensions than dimensions the loop leaves its vector. -/
theorem foldlM_appendBadOuter_outside (outside : dim < numBadOuter) (list : List (Depv dim)) :
    (List.range numBadOuter).foldlM appendBadOuter list =
      Except.error PackingFault.outOfBounds := by
  obtain ⟨made, run, -⟩ := foldlM_appendBadOuter (Nat.le_refl dim) list
  obtain ⟨more, rfl⟩ := Nat.exists_eq_add_of_lt outside
  rw [Nat.add_assoc, List.range_add, List.foldlM_append, run, List.range_succ_eq_map, List.map_cons]
  simp only [List.foldlM_cons, bind, Except.bind, appendBadOuter, Nat.add_zero,
    dif_neg (Nat.lt_irrefl dim)]

/-- `DEPV_LIST::Append` with outer dimensions that are not too many. -/
theorem appendDepv_inside (inside : numBadOuter ≤ dim) (depv : Depv dim) :
    ∃ made, appendDepv (some depv) numBadOuter [] =
        .ok (made ++ [shiftDepv numBadOuter depv]) ∧
      BadOuters numBadOuter made := by
  by_cases none : numBadOuter = 0
  · subst none
    have kept : shiftDepv 0 depv = depv := by
      ext index
      rw [shiftDepv, if_neg (Nat.not_lt_zero _)]
      rfl
    refine ⟨[], ?_, badOuters_zero⟩
    rw [appendDepv, if_pos rfl, kept]
    rfl
  · obtain ⟨made, run, outers⟩ := foldlM_appendBadOuter inside ([] : List (Depv dim))
    refine ⟨made, ?_, outers⟩
    rw [appendDepv, if_neg none, run]
    rfl

/-! ## What is packed in place of a long list -/

/-- The vectors of the list that `Create_DEPV_ARRAY` collapses to. -/
def Collapsed (numUnusedDim : Nat) (list : List (Depv dim)) (vector : Fin dim → Int) : Prop :=
  (∃ index : Fin dim, index.val < numUnusedDim ∧ vector index ≠ 0) ∨
    ZeroBefore numUnusedDim vector ∧
      ∀ index : Fin dim, numUnusedDim ≤ index.val →
        SomeDirection list ⟨index.val - numUnusedDim,
          Nat.lt_of_le_of_lt (Nat.sub_le _ _) index.isLt⟩ (vector index)

/-- What is packed in place of a list that is too long. -/
structure Packs (numUnusedDim : Nat) (list packed : List (Depv dim)) :
    Prop where
  few : dim ≤ 15 → packed.length ≤ 255
  allows : ∀ vector, ListAllows packed vector ↔
    Collapsed numUnusedDim list vector ∧
      (isLexpos list = true → Positive vector ∨ vector = 0 ∧ ListAllows list 0)

variable {numUnusedDim : Nat}

theorem collapse_outside (outside : dim < numUnusedDim) (some_ : list ≠ []) :
    collapse numUnusedDim list = .error .outOfBounds := by
  cases list with
  | nil => exact absurd rfl some_
  | cons first rest =>
      have several : numUnusedDim ≠ 0 := by omega
      simp only [collapse, appendDepv, if_neg several, foldlM_appendBadOuter_outside outside]
      rfl

theorem collapse_inside (inside : numUnusedDim ≤ dim) (some_ : list ≠ []) :
    ∃ packed, collapse numUnusedDim list = .ok packed ∧ Packs numUnusedDim list packed := by
  cases list with
  | nil => exact absurd rfl some_
  | cons first rest =>
      obtain ⟨made, run, outers⟩ := appendDepv_inside inside
        ((first :: rest).foldl collapseInto first)
      have new : ∀ vector,
          ListAllows (made ++ [shiftDepv numUnusedDim
            ((first :: rest).foldl collapseInto first)]) vector ↔
          Collapsed numUnusedDim (first :: rest) vector := by
        intro vector
        rw [listAllows_append, outers.allows, listAllows_cons, allows_shiftDepv]
        simp only [listAllows_nil, or_false, collapsed_allows]
        exact Iff.rfl
      have size := outers.posLength.append (posLength_shiftDepv inside
        ((first :: rest).foldl collapseInto first))
      cases lexpos : isLexpos (first :: rest) with
      | true =>
          refine ⟨(lexPosDecompose (containsAllEquals (first :: rest)) false
            (made ++ [shiftDepv numUnusedDim
              ((first :: rest).foldl collapseInto first)]) [] []).pos,
            by simp only [collapse, run, lexpos, bind, Except.bind, if_true],
            fun fits => ?_, fun vector => ?_⟩
          · have square : numUnusedDim * numUnusedDim ≤ 15 * 15 :=
              Nat.mul_le_mul (inside.trans fits) (inside.trans fits)
            have total := Nat.mul_add_one numUnusedDim numUnusedDim
            have bound := size (containsAllEquals (first :: rest)) [] []
            rw [List.length_nil] at bound
            omega
          · obtain ⟨pos, neg, decomposed, parts⟩ := lexPosDecompose_spec
              (containsAllEquals (first :: rest)) false
              (made ++ [shiftDepv numUnusedDim ((first :: rest).foldl collapseInto first)]) [] []
            rw [decomposed, List.nil_append, parts.positive, new,
              containsAllEquals_iff, and_comm (a := ListAllows _ 0)]
            exact and_congr_right fun _ =>
              ⟨fun signed _ => signed, fun signed => signed lexpos⟩
      | false =>
          refine ⟨made ++ [shiftDepv numUnusedDim
              ((first :: rest).foldl collapseInto first)],
            by simp only [collapse, run, lexpos, bind, Except.bind,
              Bool.false_eq_true, if_false], fun fits => ?_, fun vector => ?_⟩
          · rw [List.length_append, outers.length, List.length_singleton]
            omega
          · rw [new]
            exact ⟨fun allowed => ⟨allowed, fun passed => absurd passed (by simp [lexpos])⟩,
              And.left⟩

/-! ## The array laws -/

namespace DepvArray

/-- The vectors that an array allows; the null pointer has none. -/
def Allows (array : Option (DepvArray dim)) (vector : Fin dim → Int) : Prop :=
  ∃ some_, array = some some_ ∧ ListAllows some_.vectors vector

theorem unionInto_allows {depv tmp : Depv dim}
    (allowed : Depv.Allows depv vector ∨ Depv.Allows tmp vector) :
    Depv.Allows (unionInto depv tmp) vector := by
  intro index
  have here := allowed.imp (fun inside => inside index) (fun inside => inside index)
  rw [unionInto]
  split
  next => exact Dep.allows_unionWith here
  next same =>
      rw [not_or, not_or, Bool.not_eq_false, Bool.not_eq_false, not_not] at same
      refine here.elim id fun other => ?_
      rw [Dep.Allows, if_pos same.1] at other
      rw [Dep.Allows, if_pos same.2.1, other, same.2.2]

theorem foldl_unionInto_allows (rest : List (Depv dim)) :
    ∀ depv : Depv dim, Depv.Allows depv vector ∨ ListAllows rest vector →
      Depv.Allows (rest.foldl unionInto depv) vector := by
  induction rest with
  | nil =>
      intro depv allowed
      exact allowed.resolve_right (listAllows_nil vector)
  | cons tmp rest ih =>
      intro depv allowed
      rw [listAllows_cons, ← or_assoc] at allowed
      exact ih _ (allowed.imp_left unionInto_allows)

/-- `DEPV_ARRAY::Union` allows every vector of the array. -/
theorem union_allows {array : DepvArray dim} {depv : Depv dim}
    (united : array.union = some depv) (allowed : ListAllows array.vectors vector) :
    Depv.Allows depv vector := by
  rw [union] at united
  cases vectors : array.vectors with
  | nil =>
      rw [vectors] at allowed
      exact absurd allowed (listAllows_nil vector)
  | cons first rest =>
      rw [vectors] at united allowed
      rw [← Option.some.inj united]
      exact foldl_unionInto_allows rest first ((listAllows_cons _ _ _).1 allowed)

/-- `DEPV_ARRAY::Shorten` allows the outer dimensions of every vector. -/
theorem shorten_allows
    {array : DepvArray dim} {numDim : Nat} {shortened : DepvArray (min numDim dim)}
    (run : array.shorten numDim = .ok shortened) (allowed : ListAllows array.vectors vector) :
    ListAllows shortened.vectors
      (fun index => vector (index.castLE (Nat.min_le_right numDim dim))) := by
  obtain ⟨depv, member, inside⟩ := allowed
  rw [shorten] at run
  split at run
  next => cases run
  next =>
      cases run
      exact ⟨shortenDepv numDim depv, List.mem_map_of_mem member,
        fun index => inside _⟩

theorem goodVector_of_allows {depv : Depv (dim + 1)} {vector : Fin (dim + 1) → Int}
    (allowed : Depv.Allows depv vector) (zero : ∀ index : Fin dim, vector index.castSucc = 0) :
    goodVector depv = true := by
  apply List.all_eq_true.2
  intro index _
  have here := allowed index.castSucc
  rw [zero] at here
  exact (Dep.allows_zero_iff _).1 here

theorem shortenInto_allows {dep : Option Dep} {depv : Depv (dim + 1)} {value : Int}
    (allowed : (∃ some_ ∈ dep, some_.Allows value) ∨
      goodVector depv = true ∧ (depv (Fin.last dim)).Allows value) :
    ∃ some_ ∈ shortenInto dep depv, some_.Allows value := by
  rw [shortenInto]
  split
  next good =>
      cases dep with
      | none => exact ⟨_, rfl, (allowed.resolve_left (by simp)).2⟩
      | some dep =>
          have either : dep.Allows value ∨ (depv (Fin.last dim)).Allows value :=
            allowed.imp (by simp) And.right
          dsimp only
          split
          next constant =>
              split
              next => exact ⟨_, rfl, Dep.allows_unionWith either⟩
              next same =>
                  rw [not_or, Bool.not_eq_false, not_not] at same
                  refine ⟨dep, rfl, either.elim id fun other => ?_⟩
                  rw [Dep.Allows, if_pos constant] at other
                  rw [Dep.Allows, if_pos same.1, other, same.2]
          next => exact ⟨_, rfl, Dep.allows_unionWith either⟩
  next bad => exact allowed.resolve_right fun inside => bad inside.1

theorem foldl_shortenInto_allows {value : Int} (rest : List (Depv (dim + 1))) :
    ∀ dep : Option Dep,
      ((∃ some_ ∈ dep, some_.Allows value) ∨
        ∃ depv ∈ rest, goodVector depv = true ∧ (depv (Fin.last dim)).Allows value) →
      ∃ some_ ∈ rest.foldl shortenInto dep, some_.Allows value := by
  induction rest with
  | nil =>
      intro dep allowed
      exact allowed.resolve_right (by simp)
  | cons depv rest ih =>
      intro dep allowed
      simp only [List.mem_cons, exists_eq_or_imp, ← or_assoc] at allowed
      exact ih _ (allowed.imp_left shortenInto_allows)

/--
`DEPV_ARRAY::Shorten_To_Dep` allows the inner dimension of every vector of
the array that is zero outside of it.
-/
theorem shortenToDep_allows {array : DepvArray (dim + 1)} {vector : Fin (dim + 1) → Int}
    (allowed : ListAllows array.vectors vector)
    (zero : ∀ index : Fin dim, vector index.castSucc = 0) :
    ∃ dep, array.shortenToDep = some dep ∧ dep.Allows (vector (Fin.last dim)) := by
  obtain ⟨depv, member, inside⟩ := allowed
  exact foldl_shortenInto_allows array.vectors none
    (Or.inr ⟨depv, member, goodVector_of_allows inside zero, inside _⟩)

end DepvArray

/-! ## Packing drops no dependence -/

/-- Packing drops no dependence, and no reading of an array does. -/
structure KeepsDependences (numUnusedDim : Nat) (list : List (Depv dim)) :
    Prop where
  inside : createDepvArray numUnusedDim list ≠ .error .outOfBounds
  returns : dim ≤ 15 → numUnusedDim ≤ 15 → ∃ array, createDepvArray numUnusedDim list = .ok array
  keeps : ∀ array, createDepvArray numUnusedDim list = .ok array →
    ∀ vector, ListAllows list vector → DepvArray.Allows array vector
  onlyThese : ∀ array, createDepvArray numUnusedDim list = .ok array →
    list.length ≤ 255 → ∀ vector, DepvArray.Allows array vector → ListAllows list vector
  few : ∀ array, createDepvArray numUnusedDim list = .ok (some array) → array.vectors.length ≤ 255
  positive : ∀ array, createDepvArray numUnusedDim list = .ok array →
    isLexpos list = true → ∀ vector, DepvArray.Allows array vector →
      ¬ Negative vector ∧ (vector = 0 → ListAllows list 0)
  united : ∀ (array : DepvArray dim) depv, array.union = some depv →
    ∀ vector, ListAllows array.vectors vector → Depv.Allows depv vector
  shortened : ∀ (array : DepvArray dim) numDim shorter,
    array.shorten numDim = .ok shorter →
      ∀ vector, ListAllows array.vectors vector →
        ListAllows shorter.vectors
          (fun index => vector (index.castLE (Nat.min_le_right numDim dim)))
  shortenedToDep : ∀ inner (array : DepvArray (inner + 1)) vector,
    ListAllows array.vectors vector →
      (∀ index : Fin inner, vector index.castSucc = 0) →
        ∃ dep, array.shortenToDep = some dep ∧ dep.Allows (vector (Fin.last inner))

/--
Every vector of the list that is zero in the first dimensions keeps to the
directions that the list has further out by as many.
-/
def Covers (numUnusedDim : Nat) (list : List (Depv dim)) : Prop :=
  ∀ vector, ListAllows list vector → ZeroBefore numUnusedDim vector →
    ∀ index : Fin dim, numUnusedDim ≤ index.val →
      SomeDirection list ⟨index.val - numUnusedDim,
        Nat.lt_of_le_of_lt (Nat.sub_le _ _) index.isLt⟩ (vector index)

/-- When packing drops no dependence. -/
def PackedSafely (numUnusedDim : Nat) (list : List (Depv dim)) : Prop :=
  list.length ≤ 255 ∨ numUnusedDim = 0 ∨ numUnusedDim ≤ dim ∧ (15 < dim ∨ Covers numUnusedDim list)

theorem covers_zero (list : List (Depv dim)) : Covers 0 list := by
  rintro vector ⟨depv, member, allowed⟩ - index -
  obtain ⟨direction, named⟩ := (depv index).exists_direction
  exact ⟨depv, member, direction, named, (allowed index).direction named⟩

theorem covers_iff :
    Covers numUnusedDim list ↔
      ∀ vector, ListAllows list vector → Collapsed numUnusedDim list vector := by
  constructor
  · intro covers vector allowed
    by_cases zero : ZeroBefore numUnusedDim vector
    · exact Or.inr ⟨zero, covers vector allowed zero⟩
    · simp only [ZeroBefore, not_forall] at zero
      obtain ⟨index, below, nonzero⟩ := zero
      exact Or.inl ⟨index, below, nonzero⟩
  · intro collapsed vector allowed zero
    rcases collapsed vector allowed with ⟨index, below, nonzero⟩ | ⟨-, inside⟩
    · exact absurd (zero index below) nonzero
    · exact inside

variable {packed : List (Depv dim)}

/-- What the end of the packing returns allows what it was given. -/
theorem packDepvs_allows
    {array : Option (DepvArray dim)} (run : packDepvs numUnusedDim packed = .ok array)
    (vector : Fin dim → Int) :
    DepvArray.Allows array vector ↔ ListAllows packed vector := by
  rw [packDepvs] at run
  split at run
  next few =>
      split at run
      next none =>
          cases run
          simp [DepvArray.Allows, none]
      next =>
          split at run
          next =>
              cases run
              simp [DepvArray.Allows]
          next => cases run
  next => cases run

theorem packDepvs_inside :
    packDepvs numUnusedDim packed ≠ .error .outOfBounds := by
  intro fault
  rw [packDepvs] at fault
  split at fault
  next =>
      split at fault
      next => cases fault
      next => split at fault <;> cases fault
  next => cases fault

theorem packDepvs_returns
    (few : packed.length ≤ 255) (fits : dim ≤ 15) (unusedFits : numUnusedDim ≤ 15) :
    ∃ array, packDepvs numUnusedDim packed = .ok array := by
  rw [packDepvs, dif_pos few]
  split
  next => exact ⟨none, rfl⟩
  next => exact ⟨_, dif_pos ⟨fits, unusedFits⟩⟩

/-- An array is returned only where its dimensions fit. -/
theorem packDepvs_fits
    {array : Option (DepvArray dim)} (run : packDepvs numUnusedDim packed = .ok array) :
    dim ≤ 15 ∨ packed = [] := by
  cases array with
  | some array => exact Or.inl array.dimFits
  | none =>
      rw [packDepvs] at run
      split at run
      next =>
          split at run
          next empty => exact Or.inr empty
          next => split at run <;> cases run
      next => cases run

/-- The packing of a list, or of what was put in its place. -/
theorem keepsDependences_of_packed {list packed : List (Depv dim)}
    (run : createDepvArray numUnusedDim list = packDepvs numUnusedDim packed)
    (few : dim ≤ 15 → packed.length ≤ 255)
    (keeps : dim ≤ 15 ∨ packed = [] → ∀ vector, ListAllows list vector → ListAllows packed vector)
    (same : list.length ≤ 255 → ∀ vector, ListAllows packed vector → ListAllows list vector)
    (positive : isLexpos list = true → ∀ vector, ListAllows packed vector →
      Positive vector ∨ vector = 0 ∧ ListAllows list 0) :
    KeepsDependences numUnusedDim list where
  inside := run ▸ packDepvs_inside
  returns fits unusedFits := run ▸ packDepvs_returns (few fits) fits unusedFits
  keeps := by
    intro array created vector allowed
    rw [run] at created
    rw [packDepvs_allows created]
    exact keeps (packDepvs_fits created) vector allowed
  onlyThese := by
    intro array created short vector allowed
    rw [run] at created
    exact same short vector ((packDepvs_allows created vector).1 allowed)
  few := fun array _ => array.few
  positive := by
    intro array created lexpos vector allowed
    rw [run] at created
    rcases positive lexpos vector ((packDepvs_allows created vector).1 allowed)
      with above | ⟨rfl, inside⟩
    · refine ⟨above.not_negative, fun none => ?_⟩
      rw [none] at above
      exact absurd above not_positive_zero
    · exact ⟨not_negative_zero, fun _ => inside⟩
  united := fun _ _ united _ => DepvArray.union_allows united
  shortened := fun _ _ _ run _ => DepvArray.shorten_allows run
  shortenedToDep := fun _ _ _ => DepvArray.shortenToDep_allows

/-- A list of at most 255 vectors is packed as it is. -/
theorem keepsDependences_of_short (short : list.length ≤ 255) :
    KeepsDependences numUnusedDim list := by
  have run : createDepvArray numUnusedDim list = packDepvs numUnusedDim list :=
    if_neg (Nat.not_lt.2 short)
  refine keepsDependences_of_packed run (fun _ => short)
    (fun _ _ allowed => allowed) (fun _ _ allowed => allowed) ?_
  intro lexpos vector allowed
  refine (isLexpos_spec lexpos allowed).imp_right fun none => ⟨none, ?_⟩
  rw [← none]
  exact allowed

/-- In place of a longer list another is packed. -/
theorem createDepvArray_long (long : 255 < list.length) (inside : numUnusedDim ≤ dim) :
    ∃ packed, createDepvArray numUnusedDim list =
        packDepvs numUnusedDim packed ∧
      Packs numUnusedDim list packed := by
  have some_ : list ≠ [] := by
    rintro rfl
    exact absurd long (Nat.not_lt_zero _)
  obtain ⟨packed, run, packs⟩ := collapse_inside inside some_
  refine ⟨packed, ?_, packs⟩
  rw [createDepvArray, if_pos long, run]
  rfl

/-- Something is packed in place of a longer list. -/
theorem Packs.nonempty {list packed : List (Depv dim)}
    (packs : Packs numUnusedDim list packed) (some_ : 0 < numUnusedDim) (inside : 0 < dim) :
    packed ≠ [] := by
  let unit : Fin dim → Int := fun index => if index.val = 0 then 1 else 0
  have first : unit ⟨0, inside⟩ = 1 := if_pos rfl
  have allowed : ListAllows packed unit := by
    refine (packs.allows unit).2 ⟨Or.inl ⟨⟨0, inside⟩, some_, ?_⟩, fun _ => Or.inl ?_⟩
    · rw [first]
      decide
    · refine ⟨⟨0, inside⟩, fun before below => absurd below (Nat.not_lt_zero _), ?_⟩
      rw [first]
      decide
  rintro rfl
  exact listAllows_nil _ allowed

theorem keepsDependences_of_covers (long : 255 < list.length) (inside : numUnusedDim ≤ dim)
    (covers : dim ≤ 15 ∨ numUnusedDim = 0 → Covers numUnusedDim list) :
    KeepsDependences numUnusedDim list := by
  obtain ⟨packed, run, packs⟩ := createDepvArray_long long inside
  refine keepsDependences_of_packed run packs.few ?_
    (fun short => absurd short (Nat.not_le.2 long)) ?_
  · intro returned vector allowed
    have case : dim ≤ 15 ∨ numUnusedDim = 0 := by
      rcases returned with fits | empty
      · exact Or.inl fits
      · by_contra neither
        exact packs.nonempty (by omega) (by omega) empty
    refine (packs.allows vector).2 ⟨covers_iff.1 (covers case) vector allowed,
      fun lexpos => ?_⟩
    refine (isLexpos_spec lexpos allowed).imp_right fun none => ⟨none, ?_⟩
    rw [← none]
    exact allowed
  · intro lexpos vector allowed
    exact ((packs.allows vector).1 allowed).2 lexpos

/-- Packing a longer list takes its unused dimensions for bad ones. -/
theorem covers_of_keepsDependences
    (long : 255 < list.length) (fits : dim ≤ 15) (inside : numUnusedDim ≤ dim)
    (keeps : KeepsDependences numUnusedDim list) :
    Covers numUnusedDim list := by
  obtain ⟨packed, run, packs⟩ := createDepvArray_long long inside
  obtain ⟨array, created⟩ := keeps.returns fits (inside.trans fits)
  rw [covers_iff]
  intro vector allowed
  have inArray := keeps.keeps array created vector allowed
  rw [run] at created
  rw [packDepvs_allows created, packs.allows] at inArray
  exact inArray.1

/--
Packing a list drops no dependence exactly where the list is short enough,
has no unused dimension, or loses nothing to being shifted by them.
-/
theorem keepsDependences_iff (numUnusedDim : Nat) (list : List (Depv dim)) :
    KeepsDependences numUnusedDim list ↔ PackedSafely numUnusedDim list := by
  constructor
  · intro keeps
    by_cases short : list.length ≤ 255
    · exact Or.inl short
    · have long : 255 < list.length := Nat.lt_of_not_le short
      refine Or.inr (Or.inr ?_)
      by_cases inside : numUnusedDim ≤ dim
      · refine ⟨inside, ?_⟩
        by_cases fits : dim ≤ 15
        · exact Or.inr (covers_of_keepsDependences long fits inside keeps)
        · exact Or.inl (Nat.lt_of_not_le fits)
      · have some_ : list ≠ [] := by
          rintro rfl
          exact absurd long (Nat.not_lt_zero _)
        refine absurd ?_ keeps.inside
        rw [createDepvArray, if_pos long, collapse_outside (Nat.lt_of_not_le inside) some_]
        rfl
  · intro safe
    by_cases short : list.length ≤ 255
    · exact keepsDependences_of_short short
    · have long : 255 < list.length := Nat.lt_of_not_le short
      rcases safe with short' | rfl | ⟨inside, large | covers⟩
      · exact absurd short' short
      · exact keepsDependences_of_covers long (Nat.zero_le _)
          fun _ => covers_zero list
      · refine keepsDependences_of_covers long inside fun fits => ?_
        rcases fits with fits | rfl
        · exact absurd fits (Nat.not_le.2 large)
        · exact covers_zero list
      · exact keepsDependences_of_covers long inside fun _ => covers

/-- A dependence of the inner one of two loops. -/
def innerDistance (distance : Nat) : Depv 2 :=
  fun index => if index = 0 then .setDistance 0 else .setDistance (distance + 1)

/-- Dependences at the distances 1 to 256 of the inner one of two loops. -/
def manyDistances : List (Depv 2) :=
  (List.range 256).map innerDistance

/-- Inside of one unused loop the dependences of the inner loop are lost. -/
theorem manyDistances_dropped : ¬ KeepsDependences 1 manyDistances := by
  intro keeps
  have covers := covers_of_keepsDependences (by simp [manyDistances])
    (by decide) (by decide) keeps
  let inner : Fin 2 → Int := fun index => if index = 0 then 0 else 1
  have allowed : ListAllows manyDistances inner := by
    refine ⟨innerDistance 0, List.mem_map_of_mem (List.mem_range.2 (by decide)), ?_⟩
    refine Fin.forall_fin_two.2 ⟨?_, ?_⟩
    · rw [Dep.Allows, if_pos (by decide)]
      decide
    · rw [Dep.Allows, if_pos (by decide)]
      decide
  have zero : ZeroBefore 1 inner := by
    intro index below
    exact if_pos (Fin.ext (by simpa using below))
  obtain ⟨depv, member, direction, named, inside⟩ := covers inner allowed zero 1 (by decide)
  simp only [manyDistances, List.mem_map] at member
  obtain ⟨distance, -, rfl⟩ := member
  have equal : (Dep.setDistance 0).direction = some direction := named
  have isEqual : (Dep.setDistance 0).direction = some .eq := by decide
  rw [isEqual] at equal
  cases equal
  exact absurd (show (1 : Int) = 0 from inside) (by decide)

end OpenUH.Lno.Dependence
