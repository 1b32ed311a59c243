import OpenUH.Foundation.Lexicographic
import OpenUH.Lno.DependenceVector

/-!
# Lexicographic decomposition of dependence vectors

`be/lno/dep.cxx` splits a list of dependence vectors into the
lexicographically positive vectors of the list and those of its negation,
and puts such a pair together again.  The recursion overwrites the vector it
splits while it peels its dimensions, and restores it on the way back.

Read as sets of integer vectors, the positive part is exact.  The negative
part is exact up to the one distance, -2048, whose negation the packing
cannot hold and replaces by a direction.
-/

namespace OpenUH.Lno.Dependence

open Foundation.Lexicographic
open Function (update_eq_self update_idem update_of_ne update_self)

variable {dim : Nat}

/-! ## The source functions -/

/-- `DEPV`, with its number of dimensions. -/
abbrev Depv (dim : Nat) := Fin dim → Dep

/-- What `DEPV_NODE::Lex_Pos_Decompose` reads and writes. -/
structure Decomposition (dim : Nat) where
  depv : Depv dim
  pos : List (Depv dim)
  neg : List (Depv dim)

/--
The negation loops of the decomposition, which write the negated dimensions
of one vector from a first one on into another.
-/
def negateFrom (first : Nat) (source target : Depv dim) : Depv dim :=
  fun index => if first ≤ index.val then (source index).negate else target index

/--
`DEPV_NODE::Lex_Pos_Decompose`, by the number of dimensions from `first_dim`
to the last.
-/
def nodeLexPosDecompose (keepPosEquals keepNegEquals : Bool) :
    (remaining : Nat) → remaining ≤ dim → Decomposition dim → Decomposition dim
  | 0, _, state =>
      let pos :=
        if keepPosEquals then state.pos ++ [state.depv] else state.pos
      let neg :=
        if keepNegEquals then state.neg ++ [state.depv] else state.neg
      { state with pos := pos, neg := neg }
  | remaining + 1, inside, state =>
      let first : Fin dim := ⟨dim - (remaining + 1), by omega⟩
      let next (state : Decomposition dim) : Decomposition dim :=
        nodeLexPosDecompose keepPosEquals keepNegEquals remaining (by omega)
          state
      let orig := state.depv first
      let result :=
        if (state.depv first).direction = some .pos then
          { state with pos := state.pos ++ [state.depv] }
        else if (state.depv first).direction = some .neg then
          let n := negateFrom first state.depv state.depv
          { state with neg := state.neg ++ [n] }
        else if (state.depv first).direction = some .posNeg then
          let depv := Function.update state.depv first (.setDirection .pos)
          let pos := state.pos ++ [depv]
          let n := Function.update depv first (.setDirection .pos)
          let n := negateFrom (first + 1) depv n
          { depv := depv, pos := pos, neg := state.neg ++ [n] }
        else if (state.depv first).direction = some .posEq then
          let depv := Function.update state.depv first (.setDirection .pos)
          let pos := state.pos ++ [depv]
          let depv := Function.update depv first (.setDirection .eq)
          next { depv := depv, pos := pos, neg := state.neg }
        else if (state.depv first).direction = some .negEq then
          let n := Function.update state.depv first (.setDirection .pos)
          let n := negateFrom (first + 1) state.depv n
          let neg := state.neg ++ [n]
          let depv := Function.update state.depv first (.setDirection .eq)
          next { depv := depv, pos := state.pos, neg := neg }
        else if (state.depv first).direction = some .star then
          let depv := Function.update state.depv first (.setDirection .pos)
          let pos := state.pos ++ [depv]
          let n := negateFrom (first + 1) depv depv
          let neg := state.neg ++ [n]
          let depv := Function.update depv first (.setDirection .eq)
          next { depv := depv, pos := pos, neg := neg }
        else
          next state
      { result with depv := Function.update result.depv first orig }

/-- A `DEPV_LIST` with the two lists its decomposition appends to. -/
structure ListDecomposition (dim : Nat) where
  list : List (Depv dim)
  pos : List (Depv dim)
  neg : List (Depv dim)

/-- `DEPV_LIST::Lex_Pos_Decompose`. -/
def lexPosDecompose (keepPosEquals keepNegEquals : Bool) :
    List (Depv dim) → List (Depv dim) → List (Depv dim) → ListDecomposition dim
  | [], pos, neg => { list := [], pos := pos, neg := neg }
  | node :: rest, pos, neg =>
      let state := nodeLexPosDecompose keepPosEquals keepNegEquals
        dim (Nat.le_refl dim) { depv := node, pos := pos, neg := neg }
      let others := lexPosDecompose keepPosEquals keepNegEquals
        rest state.pos state.neg
      { others with list := state.depv :: others.list }

/-- The first loop of `Lex_Pos_Compose`. -/
def composePos : List (Depv dim) → List (Depv dim) → List (Depv dim)
  | [], result => result
  | node :: pos, result => composePos pos (result ++ [node])

/-- The second loop of `Lex_Pos_Compose`. -/
def composeNeg : List (Depv dim) → List (Depv dim) → List (Depv dim)
  | [], result => result
  | node :: neg, result =>
      composeNeg neg (result ++ [fun index => (node index).negate])

/-- `Lex_Pos_Compose`. -/
def lexPosCompose (pos neg : List (Depv dim)) : List (Depv dim) :=
  composeNeg neg (composePos pos [])

/-! ## Denotation -/

/-- The integer vectors that a dependence vector allows. -/
def Depv.Allows (depv : Depv dim) (vector : Fin dim → Int) : Prop :=
  ∀ index, (depv index).Allows (vector index)

/-- The integer vectors that a list of dependence vectors allows. -/
def ListAllows (list : List (Depv dim)) (vector : Fin dim → Int) : Prop :=
  ∃ depv ∈ list, Depv.Allows depv vector

/--
What negation makes of a vector allowed by a dependence vector.  Where the
latter has the distance -2048, only the direction is left.
-/
def Turned (depv : Depv dim) (vector image : Fin dim → Int) : Prop :=
  ∀ index,
    if (depv index).IsExtreme then 0 < image index
    else image index = -vector index

/-- The dimensions before a given one are equal. -/
def EqualBefore (first : Nat) (depv : Depv dim) : Prop :=
  ∀ index : Fin dim, index.val < first → (depv index).direction = some .eq

/-- After equals, a dependence vector starts with a positive direction. -/
def StartsPositive (depv : Depv dim) : Prop :=
  ∃ index : Fin dim,
    EqualBefore index.val depv ∧ (depv index).direction = some .pos

theorem EqualBefore.update {first : Fin dim} {depv : Depv dim} (equal : EqualBefore first.val depv)
    (dep : Dep) :
    EqualBefore first.val (Function.update depv first dep) := by
  intro index below
  have other : index ≠ first := fun same => by
    rw [same] at below
    exact Nat.lt_irrefl _ below
  rw [update_of_ne other]
  exact equal index below

theorem EqualBefore.succ {first : Fin dim} {depv : Depv dim} (equal : EqualBefore first.val depv)
    (next : (depv first).direction = some .eq) :
    EqualBefore (first.val + 1) depv := by
  intro index below
  rcases Nat.lt_succ_iff_lt_or_eq.1 below with earlier | same
  · exact equal index earlier
  · rw [Fin.ext same]
    exact next

/-- Equal dimensions allow zero only. -/
theorem EqualBefore.zeroBefore {first : Nat} {depv : Depv dim} {vector : Fin dim → Int}
    (equal : EqualBefore first depv) (allowed : Depv.Allows depv vector) :
    ZeroBefore first vector := by
  intro index below
  exact (Dep.allows_of_eq (equal index below) _).1 (allowed index)

@[simp]
theorem listAllows_nil (vector : Fin dim → Int) : ¬ ListAllows [] vector := by
  simp [ListAllows]

@[simp]
theorem listAllows_cons (depv : Depv dim) (list : List (Depv dim)) (vector : Fin dim → Int) :
    ListAllows (depv :: list) vector ↔ Depv.Allows depv vector ∨ ListAllows list vector := by
  simp [ListAllows]

@[simp]
theorem listAllows_append (left right : List (Depv dim)) (vector : Fin dim → Int) :
    ListAllows (left ++ right) vector ↔ ListAllows left vector ∨ ListAllows right vector := by
  simp [ListAllows, or_and_right, exists_or]

/-! ## What one decomposition is -/

/-- The two lists are the decomposition of a dependence vector. -/
structure Decomposes
    (keepPosEquals keepNegEquals : Bool)
    (depv : Depv dim)
    (pos neg : List (Depv dim)) : Prop where
  positive : ∀ vector, ListAllows pos vector ↔
    Depv.Allows depv vector ∧ (Positive vector ∨ keepPosEquals = true ∧ vector = 0)
  negative : ∀ image, ListAllows neg image ↔
    ∃ vector, Depv.Allows depv vector ∧
      (Negative vector ∨ keepNegEquals = true ∧ vector = 0) ∧ Turned depv vector image
  posStarts : ∀ node ∈ pos, StartsPositive node ∨ keepPosEquals = true ∧ EqualBefore dim node
  negStarts : ∀ node ∈ neg, StartsPositive node ∨ keepNegEquals = true ∧ EqualBefore dim node
  negStored : ∀ node ∈ neg, ∀ index, ¬ (node index).IsExtreme

theorem turned_congr {depv other : Depv dim}
    (same : ∀ index, (depv index).IsExtreme ↔ (other index).IsExtreme)
    (vector image : Fin dim → Int) :
    Turned depv vector image ↔ Turned other vector image := by
  simp only [Turned, same]

/-- A vector split in two is decomposed by decomposing the two. -/
theorem Decomposes.union {keepPosEquals keepNegEquals : Bool} {depv left right : Depv dim}
    {pos pos' neg neg' : List (Depv dim)}
    (split : ∀ vector, Depv.Allows depv vector ↔ Depv.Allows left vector ∨ Depv.Allows right vector)
    (leftSame : ∀ index, (left index).IsExtreme ↔ (depv index).IsExtreme)
    (rightSame : ∀ index, (right index).IsExtreme ↔ (depv index).IsExtreme)
    (ofLeft : Decomposes keepPosEquals keepNegEquals left pos neg)
    (ofRight : Decomposes keepPosEquals keepNegEquals right pos' neg') :
    Decomposes keepPosEquals keepNegEquals depv (pos ++ pos') (neg ++ neg') where
  positive := by
    intro vector
    rw [listAllows_append, ofLeft.positive, ofRight.positive, split, or_and_right]
  negative := by
    intro image
    rw [listAllows_append, ofLeft.negative, ofRight.negative, ← exists_or]
    apply exists_congr
    intro vector
    rw [turned_congr leftSame, turned_congr rightSame, split, ← or_and_right]
  posStarts := by
    intro node member
    rcases List.mem_append.1 member with inLeft | inRight
    · exact ofLeft.posStarts node inLeft
    · exact ofRight.posStarts node inRight
  negStarts := by
    intro node member
    rcases List.mem_append.1 member with inLeft | inRight
    · exact ofLeft.negStarts node inLeft
    · exact ofRight.negStarts node inRight
  negStored := by
    intro node member
    rcases List.mem_append.1 member with inLeft | inRight
    · exact ofLeft.negStored node inLeft
    · exact ofRight.negStored node inRight

theorem not_extreme_of_direction {dep : Dep} {direction : Direction}
    (named : dep.direction = some direction) (other : direction ≠ .neg) :
    ¬ dep.IsExtreme := by
  rintro ⟨constant, least⟩
  rw [Dep.direction_of_distance constant, least, Option.some.injEq] at named
  exact other (by rw [← named]; decide)

/-- A vector whose sign is settled to be positive. -/
theorem decomposes_of_pos {keepPosEquals keepNegEquals : Bool} {first : Fin dim} {depv : Depv dim}
    (equal : EqualBefore first.val depv) (named : (depv first).direction = some .pos) :
    Decomposes keepPosEquals keepNegEquals depv [depv] [] := by
  have signed : ∀ vector, Depv.Allows depv vector →
      Positive vector ∧ ¬ Negative vector ∧ vector ≠ 0 := by
    intro vector allowed
    have above : 0 < vector first := (allowed first).direction named
    have zero := equal.zeroBefore allowed
    refine ⟨(positive_iff_of_zeroBefore zero first.isLt above.ne').2 above,
      fun negative => ?_, fun none => ?_⟩
    · exact lt_asymm above ((negative_iff_of_zeroBefore zero first.isLt above.ne').1 negative)
    · rw [none] at above
      exact lt_irrefl _ above
  exact {
    positive := by
      intro vector
      simp only [listAllows_cons, listAllows_nil, or_false]
      exact ⟨fun allowed => ⟨allowed, Or.inl (signed vector allowed).1⟩, And.left⟩
    negative := by
      intro image
      simp only [listAllows_nil, false_iff]
      rintro ⟨vector, allowed, negative | ⟨-, none⟩, -⟩
      · exact (signed vector allowed).2.1 negative
      · exact (signed vector allowed).2.2 none
    posStarts := by
      intro node member
      rw [List.mem_singleton.1 member]
      exact Or.inl ⟨first, equal, named⟩
    negStarts := by simp
    negStored := by simp }

/-- The negation loop turns what a vector allows. -/
theorem allows_negateFrom {first : Nat} {depv : Depv dim} (equal : EqualBefore first depv)
    (image : Fin dim → Int) :
    Depv.Allows (negateFrom first depv depv) image ↔
      ∃ vector, Depv.Allows depv vector ∧ Turned depv vector image := by
  constructor
  · intro allowed
    refine ⟨fun index =>
      if (depv index).IsExtreme then -2048 else -image index,
      fun index => ?_, fun index => ?_⟩
    · have here := allowed index
      simp only [negateFrom] at here
      dsimp only
      by_cases extreme : (depv index).IsExtreme
      · rw [if_pos extreme, Dep.Allows, if_pos extreme.1, extreme.2]
        rfl
      · rw [if_neg extreme]
        by_cases before : first ≤ index.val
        · rw [if_pos before, Dep.allows_negate extreme] at here
          exact here
        · have named := equal index (by omega)
          rw [if_neg before, Dep.allows_of_eq named] at here
          rw [Dep.allows_of_eq named, here, neg_zero]
    · have here := allowed index
      simp only [negateFrom] at here
      by_cases extreme : (depv index).IsExtreme
      · have inside : first ≤ index.val := by
          by_contra before
          exact not_extreme_of_direction (equal index (by omega)) (by decide) extreme
        rw [if_pos inside, Dep.allows_negate_of_extreme extreme] at here
        simpa only [if_pos extreme] using here
      · simp only [if_neg extreme, neg_neg]
  · rintro ⟨vector, allowed, turned⟩ index
    have here := turned index
    simp only [negateFrom]
    by_cases inside : first ≤ index.val
    · rw [if_pos inside]
      by_cases extreme : (depv index).IsExtreme
      · rw [if_pos extreme] at here
        exact (Dep.allows_negate_of_extreme extreme _).2 here
      · rw [if_neg extreme] at here
        rw [Dep.allows_negate extreme, here, neg_neg]
        exact allowed index
    · have named := equal index (by omega)
      rw [if_neg (not_extreme_of_direction named (by decide)),
        equal.zeroBefore allowed index (by omega), neg_zero] at here
      rw [if_neg inside, Dep.allows_of_eq named]
      exact here

/-- A negated dependence is never the least distance. -/
theorem not_extreme_negate (dep : Dep) : ¬ dep.negate.IsExtreme := by
  by_cases constant : dep.isDistance = true
  · have bounds := depDistance_bounds dep.bits
    by_cases extreme : dep.IsExtreme
    · rw [Dep.negate_of_extreme extreme]
      decide
    · have unequal : dep.distance ≠ -2048 := fun equal =>
        extreme ⟨constant, equal⟩
      have least : -2048 < dep.distance := lt_of_le_of_ne bounds.1 (Ne.symm unequal)
      have greatest : dep.distance ≤ 2047 := bounds.2
      rintro ⟨-, least'⟩
      rw [Dep.negate_of_distance constant, Dep.distance_setDistance (by omega) (by omega)] at least'
      unfold minDistancePrivate at least'
      omega
  · obtain ⟨direction, named⟩ := Dep.exists_direction dep
    have varying := (Dep.negate_of_direction (by simpa using constant) named).1
    rintro ⟨constant', -⟩
    rw [varying] at constant'
    exact Bool.noConfusion constant'

/-- A vector whose sign is settled to be negative. -/
theorem decomposes_of_neg {keepPosEquals keepNegEquals : Bool} {first : Fin dim} {depv : Depv dim}
    (equal : EqualBefore first.val depv) (named : (depv first).direction = some .neg) :
    Decomposes keepPosEquals keepNegEquals depv [] [negateFrom first depv depv] := by
  have signed : ∀ vector, Depv.Allows depv vector →
      Negative vector ∧ ¬ Positive vector ∧ vector ≠ 0 := by
    intro vector allowed
    have below : vector first < 0 := (allowed first).direction named
    have zero := equal.zeroBefore allowed
    refine ⟨(negative_iff_of_zeroBefore zero first.isLt below.ne).2 below,
      fun positive => ?_, fun none => ?_⟩
    · exact lt_asymm below ((positive_iff_of_zeroBefore zero first.isLt below.ne).1 positive)
    · rw [none] at below
      exact lt_irrefl _ below
  exact {
    positive := by
      intro vector
      simp only [listAllows_nil, false_iff]
      rintro ⟨allowed, positive | ⟨-, none⟩⟩
      · exact (signed vector allowed).2.1 positive
      · exact (signed vector allowed).2.2 none
    negative := by
      intro image
      simp only [listAllows_cons, listAllows_nil, or_false]
      rw [allows_negateFrom equal]
      apply exists_congr
      intro vector
      exact ⟨fun ⟨allowed, turned⟩ =>
          ⟨allowed, Or.inl (signed vector allowed).1, turned⟩,
        fun ⟨allowed, _, turned⟩ => ⟨allowed, turned⟩⟩
    posStarts := by simp
    negStarts := by
      intro node member
      rw [List.mem_singleton.1 member]
      refine Or.inl ⟨first, fun index below => ?_, ?_⟩
      · have before : ¬ first.val ≤ index.val := Nat.not_le.2 below
        rw [negateFrom, if_neg before]
        exact equal index below
      · rw [negateFrom, if_pos (Nat.le_refl _)]
        exact Dep.direction_negate_of_neg named
    negStored := by
      intro node member index
      rw [List.mem_singleton.1 member, negateFrom]
      split
      case isTrue => exact not_extreme_negate _
      case isFalse before =>
        exact not_extreme_of_direction (equal index (by omega)) (by decide) }

/-- A vector of equal dimensions only. -/
theorem decomposes_of_equal {keepPosEquals keepNegEquals : Bool} {depv : Depv dim}
    (equal : EqualBefore dim depv) :
    Decomposes keepPosEquals keepNegEquals depv
      (if keepPosEquals then [depv] else [])
      (if keepNegEquals then [depv] else []) := by
  have plain : ∀ index, ¬ (depv index).IsExtreme := fun index =>
    not_extreme_of_direction (equal index index.isLt) (by decide)
  have zeroOnly : ∀ vector, Depv.Allows depv vector ↔ vector = 0 := by
    intro vector
    constructor
    · intro allowed
      exact (equal.zeroBefore allowed).eq_zero
    · rintro rfl index
      exact (Dep.allows_of_eq (equal index index.isLt) _).2 rfl
  exact {
    positive := by
      intro vector
      rw [zeroOnly]
      cases keepPosEquals with
      | false =>
          simp only [Bool.false_eq_true, if_false, listAllows_nil, false_and, or_false, false_iff]
          rintro ⟨rfl, positive⟩
          exact not_positive_zero positive
      | true =>
          simp only [if_true, listAllows_cons, listAllows_nil, or_false, zeroOnly, true_and]
          exact ⟨fun none => ⟨none, Or.inr none⟩, And.left⟩
    negative := by
      intro image
      cases keepNegEquals with
      | false =>
          simp only [Bool.false_eq_true, if_false, listAllows_nil, false_and, or_false, false_iff]
          rintro ⟨vector, allowed, negative, -⟩
          rw [(zeroOnly vector).1 allowed] at negative
          exact not_negative_zero negative
      | true =>
          simp only [if_true, listAllows_cons, listAllows_nil, or_false, zeroOnly, true_and]
          simp only [Turned, plain, if_false]
          constructor
          · rintro rfl
            exact ⟨0, rfl, Or.inr rfl, fun index => rfl⟩
          · rintro ⟨vector, rfl, -, turned⟩
            ext index
            exact turned index
    posStarts := by
      intro node member
      cases keepPosEquals with
      | false => exact absurd member List.not_mem_nil
      | true =>
          rw [List.mem_singleton.1 member]
          exact Or.inr ⟨rfl, equal⟩
    negStarts := by
      intro node member
      cases keepNegEquals with
      | false => exact absurd member List.not_mem_nil
      | true =>
          rw [List.mem_singleton.1 member]
          exact Or.inr ⟨rfl, equal⟩
    negStored := by
      intro node member
      cases keepNegEquals with
      | false => exact absurd member List.not_mem_nil
      | true =>
          rw [List.mem_singleton.1 member]
          exact plain }

/-! ## Peeling one dimension -/

theorem allows_update {first : Fin dim} {depv : Depv dim} (dep : Dep) (vector : Fin dim → Int) :
    Depv.Allows (Function.update depv first dep) vector ↔
      dep.Allows (vector first) ∧ ∀ index, index ≠ first → (depv index).Allows (vector index) := by
  constructor
  · intro allowed
    refine ⟨?_, fun index other => ?_⟩
    · have here := allowed first
      rwa [update_self] at here
    · have here := allowed index
      rwa [update_of_ne other] at here
  · rintro ⟨here, others⟩ index
    by_cases same : index = first
    · rw [same, update_self]
      exact here
    · rw [update_of_ne same]
      exact others index same

/-- A dimension that is a union splits the vector. -/
theorem allows_union {first : Fin dim} {depv : Depv dim} {left right : Dep}
    (union : ∀ value, (depv first).Allows value ↔ left.Allows value ∨ right.Allows value)
    (vector : Fin dim → Int) :
    Depv.Allows depv vector ↔
      Depv.Allows (Function.update depv first left) vector ∨
        Depv.Allows (Function.update depv first right) vector := by
  have depvIs : depv = Function.update depv first (depv first) :=
    (update_eq_self first depv).symm
  rw [depvIs, update_idem, update_idem, allows_update,
    allows_update, allows_update, union, or_and_right]

/-- Writing a direction does not change which distances are extreme. -/
theorem extreme_update {first : Fin dim} {depv : Depv dim} {dep : Dep}
    (plain : ¬ (depv first).IsExtreme) (written : ¬ dep.IsExtreme) (index : Fin dim) :
    (Function.update depv first dep index).IsExtreme ↔ (depv index).IsExtreme := by
  by_cases same : index = first
  · rw [same, update_self]
    exact iff_of_false written plain
  · rw [update_of_ne same]

theorem not_extreme_setDirection (direction : Direction) :
    ¬ (Dep.setDirection direction).IsExtreme := by
  cases direction <;> decide

/--
The loops that leave out the first dimension and set it to positive negate
the vector whose first dimension is negative.
-/
theorem negateFrom_peeled {first : Fin dim} {depv source target : Depv dim}
    (sourceRest : ∀ index, index ≠ first → source index = depv index)
    (targetRest : ∀ index, index ≠ first → target index = depv index)
    (positive : target first = Dep.setDirection .pos) :
    negateFrom (first + 1) source target =
      negateFrom first
        (Function.update depv first (Dep.setDirection .neg))
        (Function.update depv first (Dep.setDirection .neg)) := by
  ext index
  by_cases same : index = first
  · have turned : (Dep.setDirection .neg).negate = Dep.setDirection .pos := by
      decide
    subst same
    rw [negateFrom, negateFrom, if_neg (by omega), if_pos (Nat.le_refl _),
      update_self, positive, turned]
  · have unequal : index.val ≠ first.val := fun equal => same (Fin.ext equal)
    rw [negateFrom, negateFrom, update_of_ne same,
      sourceRest index same, targetRest index same]
    by_cases below : index.val < first.val
    · rw [if_neg (by omega), if_neg (by omega)]
    · rw [if_pos (by omega), if_pos (by omega)]

/-- A dimension that is a union of two directions is decomposed by parts. -/
theorem Decomposes.of_union {keepPosEquals keepNegEquals : Bool}
    {first : Fin dim} {depv : Depv dim} {union left right : Direction}
    {pos pos' neg neg' : List (Depv dim)} (named : (depv first).direction = some union)
    (several : union ≠ .pos ∧ union ≠ .neg ∧ union ≠ .eq)
    (isUnion : ∀ value, union.Allows value ↔ left.Allows value ∨ right.Allows value)
    (ofLeft : Decomposes keepPosEquals keepNegEquals
      (Function.update depv first (.setDirection left)) pos neg)
    (ofRight : Decomposes keepPosEquals keepNegEquals
      (Function.update depv first (.setDirection right)) pos' neg') :
    Decomposes keepPosEquals keepNegEquals depv (pos ++ pos') (neg ++ neg') := by
  have plain := not_extreme_of_direction named several.2.1
  refine Decomposes.union (allows_union fun value => ?_)
    (extreme_update plain (not_extreme_setDirection left))
    (extreme_update plain (not_extreme_setDirection right)) ofLeft ofRight
  rw [Dep.allows_iff_direction named several, Dep.allows_setDirection, Dep.allows_setDirection]
  exact isUnion value

theorem updated_direction (first : Fin dim) (depv : Depv dim) (direction : Direction) :
    (Function.update depv first (.setDirection direction) first).direction = some direction := by
  rw [update_self, Dep.direction_setDirection]

/-! ## The recursion -/

/-- One level of the recursion, at its dimension. -/
theorem nodeLexPosDecompose_succ (keepPosEquals keepNegEquals : Bool)
    {remaining : Nat} {first : Fin dim} (inside : remaining + 1 ≤ dim) (state : Decomposition dim)
    (firstIs : dim - (remaining + 1) = first.val) :
    nodeLexPosDecompose keepPosEquals keepNegEquals (remaining + 1) inside
        state =
      (let next := nodeLexPosDecompose keepPosEquals keepNegEquals remaining
        (Nat.le_of_succ_le inside)
      let positive := Function.update state.depv first (.setDirection .pos)
      let equal := Function.update state.depv first (.setDirection .eq)
      let result :=
        if (state.depv first).direction = some .pos then
          { state with pos := state.pos ++ [state.depv] }
        else if (state.depv first).direction = some .neg then
          { state with
            neg := state.neg ++ [negateFrom first state.depv state.depv] }
        else if (state.depv first).direction = some .posNeg then
          { depv := positive
            pos := state.pos ++ [positive]
            neg := state.neg ++ [negateFrom (first + 1) positive positive] }
        else if (state.depv first).direction = some .posEq then
          next
            { depv := equal
              pos := state.pos ++ [positive]
              neg := state.neg }
        else if (state.depv first).direction = some .negEq then
          next
            { depv := equal
              pos := state.pos
              neg := state.neg ++ [negateFrom (first + 1) state.depv positive] }
        else if (state.depv first).direction = some .star then
          next
            { depv := equal
              pos := state.pos ++ [positive]
              neg := state.neg ++ [negateFrom (first + 1) positive positive] }
        else
          next state
      { result with
        depv := Function.update result.depv first (state.depv first) }) := by
  simp only [nodeLexPosDecompose, firstIs, update_idem]

/--
The recursion restores the vector and appends its decomposition, by
induction on the dimensions that are left.
-/
theorem nodeLexPosDecompose_spec (keepPosEquals keepNegEquals : Bool) (remaining : Nat) :
    ∀ (inside : remaining ≤ dim) (state : Decomposition dim),
      EqualBefore (dim - remaining) state.depv →
        ∃ pos neg,
          nodeLexPosDecompose keepPosEquals keepNegEquals remaining inside
              state =
            { depv := state.depv
              pos := state.pos ++ pos
              neg := state.neg ++ neg } ∧
          Decomposes keepPosEquals keepNegEquals state.depv pos neg := by
  induction remaining with
  | zero =>
      intro inside state equal
      refine ⟨_, _, ?_, decomposes_of_equal equal⟩
      unfold nodeLexPosDecompose
      cases keepPosEquals <;> cases keepNegEquals <;> simp
  | succ remaining deeper =>
      intro inside state equal
      obtain ⟨first, firstIs⟩ : ∃ first : Fin dim, dim - (remaining + 1) = first.val :=
        ⟨⟨dim - (remaining + 1), by omega⟩, rfl⟩
      have next : first.val + 1 = dim - remaining := by omega
      rw [firstIs] at equal
      have atEq :=
        (equal.update (.setDirection .eq)).succ (updated_direction first state.depv .eq)
      rw [next] at atEq
      have ofPos : Decomposes keepPosEquals keepNegEquals
          (Function.update state.depv first (.setDirection .pos)) _ _ :=
        decomposes_of_pos (equal.update (.setDirection .pos))
          (updated_direction first state.depv .pos)
      have ofNeg : Decomposes keepPosEquals keepNegEquals
          (Function.update state.depv first (.setDirection .neg)) _ _ :=
        decomposes_of_neg (equal.update (.setDirection .neg))
          (updated_direction first state.depv .neg)
      have positiveRest : ∀ index, index ≠ first →
          Function.update state.depv first (.setDirection .pos) index = state.depv index :=
        fun index other => update_of_ne other _ _
      have loop := negateFrom_peeled positiveRest positiveRest (update_self first _ _)
      have sourceLoop := negateFrom_peeled (fun _ _ => rfl) positiveRest
        (update_self first _ _)
      obtain ⟨direction, named⟩ := Dep.exists_direction (state.depv first)
      rw [nodeLexPosDecompose_succ keepPosEquals keepNegEquals inside state firstIs]
      cases direction with
      | pos =>
          refine ⟨_, _, ?_, decomposes_of_pos equal named⟩
          simp only [named, if_true, update_eq_self, List.append_nil]
      | neg =>
          refine ⟨_, _, ?_, decomposes_of_neg equal named⟩
          simp only [named, reduceCtorEq, Option.some.injEq, if_true,
            if_false, update_eq_self, List.append_nil]
      | posNeg =>
          refine ⟨_, _, ?_, ofPos.of_union named (by decide) (fun value => Iff.rfl) ofNeg⟩
          simp only [named, reduceCtorEq, Option.some.injEq, if_true,
            if_false, update_idem, update_eq_self,
            List.append_nil, List.nil_append, loop]
      | posEq =>
          obtain ⟨pos, neg, run, ofEq⟩ := deeper (by omega)
            { depv := Function.update state.depv first (.setDirection .eq)
              pos := state.pos ++ [Function.update state.depv first (.setDirection .pos)]
              neg := state.neg } atEq
          refine ⟨_, _, ?_, ofPos.of_union named (by decide) (fun value => Iff.rfl) ofEq⟩
          simp only [named, reduceCtorEq, Option.some.injEq, if_true,
            if_false, update_idem, run, update_eq_self,
            List.append_assoc, List.nil_append]
      | negEq =>
          obtain ⟨pos, neg, run, ofEq⟩ := deeper (by omega)
            { depv := Function.update state.depv first (.setDirection .eq)
              pos := state.pos
              neg := state.neg ++
                [negateFrom first
                  (Function.update state.depv first (.setDirection .neg))
                  (Function.update state.depv first (.setDirection .neg))] }
            atEq
          refine ⟨_, _, ?_, ofNeg.of_union named (by decide) (fun value => Iff.rfl) ofEq⟩
          simp only [named, reduceCtorEq, Option.some.injEq, if_true,
            if_false, update_idem, sourceLoop, run,
            update_eq_self, List.append_assoc, List.nil_append]
      | star =>
          obtain ⟨pos, neg, run, ofEq⟩ := deeper (by omega)
            { depv := Function.update state.depv first (.setDirection .eq)
              pos := state.pos ++ [Function.update state.depv first (.setDirection .pos)]
              neg := state.neg ++
                [negateFrom first
                  (Function.update state.depv first (.setDirection .neg))
                  (Function.update state.depv first (.setDirection .neg))] }
            atEq
          have notPositive : Decomposes keepPosEquals keepNegEquals
              (Function.update state.depv first (.setDirection .negEq))
              ([] ++ pos)
              ([negateFrom first
                (Function.update state.depv first (.setDirection .neg))
                (Function.update state.depv first (.setDirection .neg))] ++ neg) := by
            have isUnion : ∀ value, Direction.negEq.Allows value ↔
                Direction.neg.Allows value ∨ Direction.eq.Allows value :=
              fun value => Iff.rfl
            refine Decomposes.of_union
              (updated_direction first state.depv .negEq) (by decide)
              isUnion ?_ ?_
            · rw [update_idem]
              exact ofNeg
            · rw [update_idem]
              exact ofEq
          have isUnion : ∀ value, Direction.star.Allows value ↔
              Direction.pos.Allows value ∨ Direction.negEq.Allows value := by
            intro value
            simp only [Direction.Allows, true_iff]
            omega
          refine ⟨_, _, ?_, ofPos.of_union named (by decide) isUnion notPositive⟩
          simp only [named, reduceCtorEq, Option.some.injEq, if_true,
            if_false, update_idem, loop, run,
            update_eq_self, List.append_assoc, List.nil_append]
      | eq =>
          obtain ⟨pos, neg, run, ofEq⟩ := deeper (by omega) state (next ▸ equal.succ named)
          refine ⟨_, _, ?_, ofEq⟩
          simp only [named, reduceCtorEq, Option.some.injEq, if_false, run, update_eq_self]

/-! ## Lists -/

/-- What the decomposition of a list appends. -/
structure ListDecomposes
    (keepPosEquals keepNegEquals : Bool)
    (list pos neg : List (Depv dim)) : Prop where
  positive : ∀ vector, ListAllows pos vector ↔
    ListAllows list vector ∧ (Positive vector ∨ keepPosEquals = true ∧ vector = 0)
  negative : ∀ image, ListAllows neg image ↔
    ∃ depv ∈ list, ∃ vector, Depv.Allows depv vector ∧
      (Negative vector ∨ keepNegEquals = true ∧ vector = 0) ∧ Turned depv vector image
  posStarts : ∀ node ∈ pos, StartsPositive node ∨ keepPosEquals = true ∧ EqualBefore dim node
  negStarts : ∀ node ∈ neg, StartsPositive node ∨ keepNegEquals = true ∧ EqualBefore dim node
  negStored : ∀ node ∈ neg, ∀ index, ¬ (node index).IsExtreme

theorem listDecomposes_nil (keepPosEquals keepNegEquals : Bool) :
    ListDecomposes keepPosEquals keepNegEquals ([] : List (Depv dim)) [] [] where
  positive := by simp
  negative := by simp
  posStarts := by simp
  negStarts := by simp
  negStored := by simp

theorem ListDecomposes.cons {keepPosEquals keepNegEquals : Bool}
    {depv : Depv dim} {list pos pos' neg neg' : List (Depv dim)}
    (first : Decomposes keepPosEquals keepNegEquals depv pos neg)
    (rest : ListDecomposes keepPosEquals keepNegEquals list pos' neg') :
    ListDecomposes keepPosEquals keepNegEquals (depv :: list) (pos ++ pos') (neg ++ neg') where
  positive := by
    intro vector
    rw [listAllows_append, first.positive, rest.positive, listAllows_cons, or_and_right]
  negative := by
    intro image
    rw [listAllows_append, first.negative, rest.negative]
    simp only [List.mem_cons, or_and_right, exists_or, exists_eq_left]
  posStarts := by
    intro node member
    rcases List.mem_append.1 member with inFirst | inRest
    · exact first.posStarts node inFirst
    · exact rest.posStarts node inRest
  negStarts := by
    intro node member
    rcases List.mem_append.1 member with inFirst | inRest
    · exact first.negStarts node inFirst
    · exact rest.negStarts node inRest
  negStored := by
    intro node member
    rcases List.mem_append.1 member with inFirst | inRest
    · exact first.negStored node inFirst
    · exact rest.negStored node inRest

/-- The list is left as it was and its decomposition is appended. -/
theorem lexPosDecompose_spec (keepPosEquals keepNegEquals : Bool) (list : List (Depv dim)) :
    ∀ before before' : List (Depv dim), ∃ pos neg,
      lexPosDecompose keepPosEquals keepNegEquals list before before' =
        { list := list, pos := before ++ pos, neg := before' ++ neg } ∧
      ListDecomposes keepPosEquals keepNegEquals list pos neg := by
  induction list with
  | nil =>
      intro before before'
      refine ⟨[], [], ?_, listDecomposes_nil _ _⟩
      simp only [lexPosDecompose, List.append_nil]
  | cons node rest inductive_ =>
      intro before before'
      have start : EqualBefore (dim - dim) node := by
        intro index below
        omega
      obtain ⟨pos, neg, run, ofNode⟩ := nodeLexPosDecompose_spec
        keepPosEquals keepNegEquals dim (Nat.le_refl dim)
        { depv := node, pos := before, neg := before' } start
      obtain ⟨pos', neg', others, ofRest⟩ := inductive_ (before ++ pos) (before' ++ neg)
      refine ⟨_, _, ?_, ListDecomposes.cons ofNode ofRest⟩
      simp only [lexPosDecompose, run, others, List.append_assoc]

/-! ## Composition -/

theorem composePos_eq (pos : List (Depv dim)) :
    ∀ result, composePos pos result = result ++ pos := by
  induction pos with
  | nil => simp [composePos]
  | cons node pos rest =>
      intro result
      rw [composePos, rest, List.append_assoc, List.singleton_append]

theorem composeNeg_eq (neg : List (Depv dim)) :
    ∀ result, composeNeg neg result =
      result ++ neg.map (fun node index => (node index).negate) := by
  induction neg with
  | nil => simp [composeNeg]
  | cons node neg rest =>
      intro result
      rw [composeNeg, rest, List.append_assoc, List.map_cons, List.singleton_append]

/-- Composition puts the negated list behind the other one. -/
theorem lexPosCompose_eq (pos neg : List (Depv dim)) :
    lexPosCompose pos neg = pos ++ neg.map (fun node index => (node index).negate) := by
  rw [lexPosCompose, composePos_eq, composeNeg_eq, List.nil_append]

/-- What a decomposition leaves in the negative list is negated exactly. -/
theorem listAllows_map_negate {neg : List (Depv dim)}
    (stored : ∀ node ∈ neg, ∀ index, ¬ (node index).IsExtreme) (vector : Fin dim → Int) :
    ListAllows (neg.map (fun node index => (node index).negate)) vector ↔
      ListAllows neg (-vector) := by
  simp only [ListAllows, List.mem_map, exists_exists_and_eq_and]
  apply exists_congr
  intro node
  apply and_congr_right
  intro member
  apply forall_congr'
  intro index
  exact Dep.allows_negate (stored node member index) (vector index)

/-- What is composed from a decomposition. -/
theorem ListDecomposes.compose {keepPosEquals keepNegEquals : Bool} {list pos neg : List (Depv dim)}
    (parts : ListDecomposes keepPosEquals keepNegEquals list pos neg) (vector : Fin dim → Int) :
    ListAllows (lexPosCompose pos neg) vector ↔
      (ListAllows list vector ∧ (Positive vector ∨ keepPosEquals = true ∧ vector = 0)) ∨
      ∃ depv ∈ list, ∃ other, Depv.Allows depv other ∧
        (Negative other ∨ keepNegEquals = true ∧ other = 0) ∧ Turned depv other (-vector) := by
  rw [lexPosCompose_eq, listAllows_append, parts.positive,
    listAllows_map_negate parts.negStored, parts.negative]

/--
The decomposition leaves the list as it was and appends the positive part of
its vectors to one list and, to the other, what negation makes of the
negative part, with the zero vector where it is kept.  Every vector in
either starts, after equals, with a positive direction unless it is a kept
one of equals only, and composing the two gives back the positive part and
the negative part turned twice.
-/
theorem lexPosDecompose_turns (keepPosEquals keepNegEquals : Bool)
    (list before before' : List (Depv dim)) :
    ∃ pos neg,
      lexPosDecompose keepPosEquals keepNegEquals list before before' =
        { list := list, pos := before ++ pos, neg := before' ++ neg } ∧
      (∀ vector, ListAllows pos vector ↔
        ListAllows list vector ∧
          (Positive vector ∨ keepPosEquals = true ∧ vector = 0)) ∧
      (∀ image, ListAllows neg image ↔
        ∃ depv ∈ list, ∃ vector, Depv.Allows depv vector ∧
          (Negative vector ∨ keepNegEquals = true ∧ vector = 0) ∧
            Turned depv vector image) ∧
      (∀ node ∈ pos, StartsPositive node ∨
        keepPosEquals = true ∧ EqualBefore dim node) ∧
      (∀ node ∈ neg, StartsPositive node ∨
        keepNegEquals = true ∧ EqualBefore dim node) ∧
      (∀ vector, ListAllows (lexPosCompose pos neg) vector ↔
        (ListAllows list vector ∧
          (Positive vector ∨ keepPosEquals = true ∧ vector = 0)) ∨
        ∃ depv ∈ list, ∃ other, Depv.Allows depv other ∧
          (Negative other ∨ keepNegEquals = true ∧ other = 0) ∧ Turned depv other (-vector)) := by
  obtain ⟨pos, neg, run, parts⟩ :=
    lexPosDecompose_spec keepPosEquals keepNegEquals list before before'
  exact ⟨pos, neg, run, parts.positive, parts.negative, parts.posStarts,
    parts.negStarts, parts.compose⟩

/--
The negative list of the single distance -2048 allows 1, which is not the
negation of a vector of the list.
-/
theorem lexPosDecompose_not_exact :
    let list : List (Depv 1) := [fun _ => Dep.setDistance (-2048)]
    let image : Fin 1 → Int := fun _ => 1
    ListAllows (lexPosDecompose true true list [] []).neg image ∧ ¬ ListAllows list (-image) := by
  intro list image
  have extreme : (Dep.setDistance (-2048)).IsExtreme := by decide
  have run : (lexPosDecompose true true list [] []).neg =
      [negateFrom 0 (fun _ => Dep.setDistance (-2048))
        (fun _ => Dep.setDistance (-2048))] := rfl
  constructor
  · rw [run, listAllows_cons]
    refine Or.inl fun index => ?_
    rw [negateFrom, if_pos (Nat.zero_le _), Dep.allows_negate_of_extreme extreme]
    exact Int.one_pos
  · rintro ⟨depv, member, allowed⟩
    rw [List.mem_singleton.1 member] at allowed
    have same : (-image) 0 = (Dep.setDistance (-2048)).distance := by
      have here := allowed 0
      rwa [Dep.Allows, if_pos extreme.1] at here
    exact absurd same (by decide)

end OpenUH.Lno.Dependence
