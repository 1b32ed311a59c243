import OpenUH.Lno.DependenceVector

/-!
# The operations on one dependence

`DEP_UnionDirection` adds a direction to a dependence,
`DEP_Lex_Pos_Decompose` separates its positive part from the positive part of
its negation, and `DEP_Lex_Pos_Compose` puts the two together again.

What a dependence denotes is read in two ways.  `Dep.Allows` reads the constant
distance or the direction.  `Dep.Guarantees` also reads `DEP_DistanceBound`,
below which the absolute value of a distance that is not constant cannot lie.
-/

namespace OpenUH.Lno.Dependence

/-! ## Unions -/

/-- `DEP_DistanceBound`, an unsigned number of 32 bits. -/
def depDistanceBound (dep : DepBits) : Nat :=
  (depDistance dep % 2 ^ 32).toNat

/-- `DEP_UnionDirection`. -/
def depUnionDirection (dep : DepBits) (direction : Direction) : DepBits :=
  if depDirection dep = some direction then
    if direction ≠ .eq then
      let dep := depMakeDistNonConstPrivate dep
      if direction = .pos then depSetDistPrivate dep 1
      else if direction = .neg then depSetDistPrivate dep 1
      else depSetDistPrivate dep 0
    else
      dep
  else
    let dep := depMakeDistNonConstPrivate dep
    depSetDistPrivate (dep ||| direction.code <<< 12) 0

/-- The direction that allows the integers of two directions. -/
def Direction.union : Direction → Direction → Direction
  | .pos, .pos => .pos
  | .neg, .neg => .neg
  | .eq, .eq => .eq
  | .pos, .neg | .neg, .pos => .posNeg
  | .pos, .posNeg | .neg, .posNeg => .posNeg
  | .posNeg, .pos | .posNeg, .neg | .posNeg, .posNeg => .posNeg
  | .pos, .eq | .eq, .pos => .posEq
  | .pos, .posEq | .eq, .posEq => .posEq
  | .posEq, .pos | .posEq, .eq | .posEq, .posEq => .posEq
  | .neg, .eq | .eq, .neg => .negEq
  | .neg, .negEq | .eq, .negEq => .negEq
  | .negEq, .neg | .negEq, .eq | .negEq, .negEq => .negEq
  | _, _ => .star

theorem Direction.union_allows (first second : Direction) (value : Int) :
    (first.union second).Allows value ↔ first.Allows value ∨ second.Allows value := by
  cases first <;> cases second <;> simp only [union, Allows] <;> grind

theorem Direction.union_self (direction : Direction) : direction.union direction = direction := by
  cases direction <;> rfl

/-- The bits of a union of two directions are those of the two. -/
theorem Direction.ofCode_or (first second : Direction) :
    Direction.ofCode (first.code ||| second.code) = some (first.union second) := by
  cases first <;> cases second <;> rfl

theorem Direction.code_of_ofCode {code : BitVec 16} {direction : Direction}
    (named : Direction.ofCode code = some direction) :
    code = direction.code := by
  unfold Direction.ofCode at named
  grind [Direction.code]

/-- The distance and the flag lie outside the direction. -/
theorem depDirection_setDist (dep : DepBits) {distance : Int}
    (small : distance = 0 ∨ distance = 1) :
    depDirection (depSetDistPrivate dep distance) = depDirection dep := by
  have kept : depSetDistPrivate dep distance &&& directionMaskPrivate =
      dep &&& directionMaskPrivate := by
    unfold depSetDistPrivate
    rw [BitVec.and_comm, BitVec.and_or_distrib_left, ← BitVec.and_assoc,
      BitVec.and_comm _ dep, BitVec.and_assoc]
    rcases small with rfl | rfl <;> exact BitVec.or_zero
  unfold depDirection
  rw [kept]

theorem depIsDistance_setDist (dep : DepBits) {distance : Int}
    (small : distance = 0 ∨ distance = 1) :
    depIsDistance (depSetDistPrivate dep distance) = depIsDistance dep := by
  have kept : depSetDistPrivate dep distance &&& distanceFlagPrivate =
      dep &&& distanceFlagPrivate := by
    unfold depSetDistPrivate
    rw [BitVec.and_comm, BitVec.and_or_distrib_left, ← BitVec.and_assoc,
      BitVec.and_comm _ dep, BitVec.and_assoc]
    rcases small with rfl | rfl <;> exact BitVec.or_zero
  unfold depIsDistance
  rw [kept]

/-- Without a constant distance, the distance is what was stored last. -/
theorem depDistance_setDist (dep : DepBits) {distance : Int} (small : distance = 0 ∨ distance = 1) :
    depDistance (depSetDistPrivate dep distance) = distance := by
  have kept : depSetDistPrivate dep distance &&& distanceMaskPrivate =
      BitVec.ofInt 16 (distance + distanceOffsetPrivate) := by
    unfold depSetDistPrivate
    rw [BitVec.and_comm, BitVec.and_or_distrib_left, ← BitVec.and_assoc,
      BitVec.and_comm _ dep, BitVec.and_assoc]
    rcases small with rfl | rfl
    · exact (congrArg (· ||| 0x0800#16) (BitVec.and_zero)).trans BitVec.zero_or
    · exact (congrArg (· ||| 0x0801#16) (BitVec.and_zero)).trans BitVec.zero_or
  unfold depDistance
  rw [kept]
  rcases small with rfl | rfl <;> rfl

theorem depIsDistance_nonConst (dep : DepBits) :
    depIsDistance (depMakeDistNonConstPrivate dep) = false := by
  have none : depMakeDistNonConstPrivate dep &&& distanceFlagPrivate = 0 := by
    unfold depMakeDistNonConstPrivate
    rw [BitVec.and_assoc]
    exact BitVec.and_zero
  unfold depIsDistance
  rw [none]
  rfl

theorem depDirection_nonConst (dep : DepBits) :
    depDirection (depMakeDistNonConstPrivate dep) = depDirection dep := by
  have kept : depMakeDistNonConstPrivate dep &&& directionMaskPrivate =
      dep &&& directionMaskPrivate := by
    unfold depMakeDistNonConstPrivate
    rw [BitVec.and_assoc]
    rfl
  unfold depDirection
  rw [kept]

theorem depIsDistance_orCode (dep : DepBits) (direction : Direction) :
    depIsDistance (dep ||| direction.code <<< 12) = depIsDistance dep := by
  have kept : (dep ||| direction.code <<< 12) &&& distanceFlagPrivate =
      dep &&& distanceFlagPrivate := by
    rw [BitVec.and_comm, BitVec.and_or_distrib_left, BitVec.and_comm _ dep]
    cases direction <;> exact BitVec.or_zero
  unfold depIsDistance
  rw [kept]

variable {own : Direction}

theorem depDirection_orCode {dep : DepBits} (named : depDirection dep = some own)
    (direction : Direction) :
    depDirection (dep ||| direction.code <<< 12) = some (own.union direction) := by
  have joined :
      ((dep ||| direction.code <<< 12) &&& directionMaskPrivate) >>> 12 =
        own.code ||| direction.code := by
    rw [BitVec.and_comm, BitVec.and_or_distrib_left, BitVec.and_comm _ dep,
      BitVec.ushiftRight_or_distrib, Direction.code_of_ofCode named]
    congr 1
    cases direction <;> rfl
  unfold depDirection
  rw [joined, Direction.ofCode_or]

/-- A bound of one is stored with the directions that exclude zero. -/
def Direction.AtLeast : Direction → Int → Prop
  | .pos, bound | .neg, bound => bound = 1
  | _, bound => bound = 0

theorem Direction.AtLeast.small {direction : Direction} {bound : Int}
    (atLeast : direction.AtLeast bound) :
    bound = 0 ∨ bound = 1 := by
  cases direction <;> first | exact .inl atLeast | exact .inr atLeast

/-- A bound that a direction allows lies below the absolute values. -/
theorem Direction.AtLeast.le_natAbs {direction : Direction} {bound value : Int}
    (atLeast : direction.AtLeast bound) (allowed : direction.Allows value) :
    bound ≤ value.natAbs := by
  cases direction <;> simp only [AtLeast, Allows] at atLeast allowed <;> omega

/-- A union is the equal dependence itself, or has no constant distance. -/
theorem depUnionDirection_cases {dep : DepBits}
    (named : depDirection dep = some own) (direction : Direction) :
    (own = .eq ∧ direction = .eq ∧ depUnionDirection dep direction = dep) ∨
      ∃ varying bound, depUnionDirection dep direction =
          depSetDistPrivate varying bound ∧
        depIsDistance varying = false ∧
        depDirection varying = some (own.union direction) ∧
        own.union direction ≠ .eq ∧
        (bound = 0 ∨ (own.union direction).AtLeast bound) := by
  unfold depUnionDirection
  split
  case isTrue same =>
    rw [named, Option.some.injEq] at same
    subst same
    have nonConst := depIsDistance_nonConst dep
    have kept := (depDirection_nonConst dep).trans named
    rw [own.union_self]
    cases own with
    | eq => exact .inl ⟨rfl, rfl, rfl⟩
    | pos | neg => exact .inr ⟨_, 1, rfl, nonConst, kept, nofun, .inr rfl⟩
    | posNeg | posEq | negEq | star => exact .inr ⟨_, 0, rfl, nonConst, kept, nofun, .inl rfl⟩
  case isFalse other =>
    refine .inr ⟨_, 0, rfl, ?_, ?_, ?_, .inl rfl⟩
    · rw [depIsDistance_orCode, depIsDistance_nonConst]
    · exact depDirection_orCode ((depDirection_nonConst dep).trans named) direction
    · intro equal
      rw [named] at other
      cases own <;> cases direction <;>
        first | exact other rfl | exact Direction.noConfusion equal

theorem depDirection_union {dep : DepBits} (named : depDirection dep = some own)
    (direction : Direction) :
    depDirection (depUnionDirection dep direction) = some (own.union direction) := by
  obtain ⟨rfl, rfl, same⟩ | ⟨varying, bound, same, -, kept, -, small⟩ :=
    depUnionDirection_cases named direction
  · rw [same, named]
    rfl
  · rw [same, depDirection_setDist _ (small.elim .inl fun atLeast => atLeast.small), kept]

theorem wellFormed_unionDirection {dep : DepBits} (wellFormed : WellFormed dep)
    (direction : Direction) :
    WellFormed (depUnionDirection dep direction) := by
  obtain ⟨own, named⟩ := Dep.exists_direction ⟨dep, wellFormed⟩
  obtain ⟨-, -, same⟩ | ⟨varying, bound, same, nonConst, -, -, small⟩ :=
    depUnionDirection_cases named direction
  · rw [same]
    exact wellFormed
  · have flag : depIsDistance (depUnionDirection dep direction) = false := by
      rw [same, depIsDistance_setDist _ (small.elim .inl fun atLeast => atLeast.small), nonConst]
    rw [WellFormed, flag, depDirection_union named]
    exact Option.some_ne_none _

namespace Dep

/-- `DEP_UnionDirection`. -/
def unionDirection (dep : Dep) (direction : Direction) : Dep :=
  ⟨depUnionDirection dep.bits direction,
    wellFormed_unionDirection dep.wellFormed direction⟩

theorem bits_injective {first second : Dep} (same : first.bits = second.bits) : first = second := by
  cases first
  cases second
  cases same
  rfl

@[simp]
theorem bits_unionDirection (dep : Dep) (direction : Direction) :
    (dep.unionDirection direction).bits = depUnionDirection dep.bits direction :=
  rfl

/-- `DEP_DistanceBound`. -/
def distanceBound (dep : Dep) : Nat :=
  depDistanceBound dep.bits

/-- A distance that does not fit: positive, and without a constant. -/
theorem setDistance_overflow {distance : Int} (outside : distance < -2048 ∨ 2047 < distance) :
    (setDistance distance).direction = some .pos ∧
      (setDistance distance).isDistance = false ∧
      (setDistance distance).distanceBound = 4294967295 := by
  have stored := depSetDistance_overflow outside
  unfold Dep.direction isDistance distanceBound setDistance
  simp only [stored]
  decide

theorem isDistance_setDistance_of_eq {distance : Int}
    (equal : (setDistance distance).direction = some .eq) :
    (setDistance distance).isDistance = true := by
  by_cases within : -2048 ≤ distance ∧ distance ≤ 2047
  · exact isDistance_setDistance within.1 within.2
  · rw [(setDistance_overflow (by omega)).1] at equal
    cases equal

/-- The dependences that the operations build. -/
inductive Built : Dep → Prop where
  | setDistance (distance : Int) (low : -2 ^ 31 ≤ distance)
      (high : distance < 2 ^ 31) : Built (setDistance distance)
  | setDirection (direction : Direction) : Built (setDirection direction)
  | unionDirection {dep : Dep} (built : Built dep) (direction : Direction) :
      Built (dep.unionDirection direction)
  | negate {dep : Dep} (built : Built dep) : Built dep.negate

/-- The equal direction is built with the distance zero only. -/
theorem Built.isDistance_of_eq {dep : Dep} (built : dep.Built) (equal : dep.direction = some .eq) :
    dep.isDistance = true := by
  induction built with
  | setDistance distance _ _ =>
      exact isDistance_setDistance_of_eq equal
  | setDirection direction =>
      rw [direction_setDirection, Option.some.injEq] at equal
      rw [equal]
      rfl
  | @unionDirection dep _ direction ih =>
      obtain ⟨own, named⟩ := dep.exists_direction
      obtain ⟨rfl, rfl, same⟩ | ⟨_, _, -, -, -, notEqual, -⟩ :=
        depUnionDirection_cases named direction
      · change depIsDistance (depUnionDirection dep.bits .eq) = true
        rw [same]
        exact ih named
      · refine absurd ?_ notEqual
        exact Option.some.inj ((depDirection_union named direction).symm.trans equal)
  | @negate dep _ ih =>
      obtain ⟨own, named⟩ := dep.exists_direction
      by_cases constant : dep.isDistance = true
      · rw [negate_of_distance constant] at equal ⊢
        exact isDistance_setDistance_of_eq equal
      · obtain ⟨-, negated⟩ :=
          negate_of_direction (Bool.not_eq_true _ ▸ constant) named
        rw [negated, Option.some.injEq] at equal
        refine absurd (ih ?_) constant
        rw [named]
        cases own <;> first | rfl | exact Direction.noConfusion equal

/-- The integers of a dependence that its bound does not exclude. -/
def Guarantees (dep : Dep) (value : Int) : Prop :=
  dep.Allows value ∧ (dep.isDistance = false → dep.distanceBound ≤ value.natAbs)

theorem distanceBound_of_setDist {dep : Dep} {varying : DepBits} {bound : Int}
    (stored : dep.bits = depSetDistPrivate varying bound) (small : bound = 0 ∨ bound = 1) :
    (dep.distanceBound : Int) = bound := by
  unfold distanceBound depDistanceBound
  rw [stored, depDistance_setDist varying small]
  rcases small with rfl | rfl <;> rfl

/-- What a bound of zero, or one where zero is excluded, leaves. -/
theorem guarantees_of_setDist
    {dep : Dep} {direction : Direction} {varying : DepBits} {bound value : Int}
    (stored : dep.bits = depSetDistPrivate varying bound) (named : dep.direction = some direction)
    (small : bound = 0 ∨ direction.AtLeast bound) (allowed : dep.Allows value) :
    dep.Guarantees value := by
  refine ⟨allowed, fun _ => ?_⟩
  have own := distanceBound_of_setDist stored (small.elim .inl fun least => least.small)
  obtain rfl | least := small
  · omega
  · have := least.le_natAbs (allowed.direction named)
    omega

/-! ## Laws of the operations -/

section Laws

variable {dep : Dep} {direction : Direction} {distance value : Int}

theorem allows_setDistance_iff : (setDistance distance).Allows distance ↔ -2048 ≤ distance := by
  by_cases within : -2048 ≤ distance ∧ distance ≤ 2047
  · refine iff_of_true ?_ within.1
    rw [Allows, if_pos (isDistance_setDistance within.1 within.2),
      distance_setDistance within.1 within.2]
  · obtain ⟨named, varying, -⟩ := @setDistance_overflow distance (by omega)
    rw [Allows, varying, named]
    simp only [Bool.false_eq_true, if_false, Option.some.injEq, exists_eq_left', Direction.Allows]
    omega

theorem direction_setDistance_iff :
    (setDistance distance).direction = some (distanceDirection distance) ↔ -2048 ≤ distance := by
  by_cases within : -2048 ≤ distance ∧ distance ≤ 2047
  · exact iff_of_true (depSetDistance_within within.1 within.2).2.2 within.1
  · obtain ⟨named, -, -⟩ := @setDistance_overflow distance (by omega)
    rw [named, Option.some.injEq]
    constructor
    · intro same
      by_contra small
      rw [distanceDirection, if_neg (by omega), if_pos (by omega)] at same
      cases same
    · intro large
      rw [distanceDirection, if_pos (by omega)]

theorem guarantees_setDistance_iff (low : -2 ^ 31 ≤ distance) (high : distance < 2 ^ 31) :
    (setDistance distance).Guarantees distance ↔ -2048 ≤ distance ∧ distance ≤ 2047 := by
  constructor
  · intro guaranteed
    by_contra outside
    obtain ⟨-, varying, bound⟩ := @setDistance_overflow distance (by omega)
    have above := guaranteed.2 varying
    omega
  · intro within
    refine ⟨allows_setDistance_iff.mpr within.1, fun varying => ?_⟩
    rw [isDistance_setDistance within.1 within.2] at varying
    cases varying

/-- The negation denotes the negated integers, and at the least distance all
positive ones. -/
theorem allows_negate_of_allows (allowed : dep.Allows value) : dep.negate.Allows (-value) := by
  by_cases extreme : dep.IsExtreme
  · rw [allows_negate_of_extreme extreme]
    unfold Allows at allowed
    rw [if_pos extreme.1, extreme.2] at allowed
    rw [allowed]
    decide
  · rw [allows_negate extreme, Int.neg_neg]
    exact allowed

theorem bits_negate (varying : dep.isDistance = false) (named : dep.direction = some direction) :
    (∃ stored bound, dep.negate.bits = depSetDistPrivate stored bound ∧
      (bound = 0 ∨ direction.opposite.AtLeast bound)) ∨
      dep.negate = dep := by
  unfold isDistance at varying
  unfold Dep.direction at named
  have negated : dep.negate.bits = depNegate dep.bits := rfl
  rw [depNegate] at negated
  rw [varying, named] at negated
  cases direction with
  | pos | neg => exact .inl ⟨_, 1, negated, .inr rfl⟩
  | posEq | negEq => exact .inl ⟨_, 0, negated, .inl rfl⟩
  | eq | posNeg | star => exact .inr (bits_injective negated)

theorem guarantees_negate_iff :
    (∀ value, dep.Guarantees value → dep.negate.Guarantees (-value)) ↔ ¬dep.IsExtreme := by
  constructor
  · intro all extreme
    have own : dep.Guarantees (-2048) := by
      refine ⟨?_, fun varying => ?_⟩
      · rw [Allows, if_pos extreme.1, extreme.2]
        rfl
      · rw [extreme.1] at varying
        cases varying
    have negated := all _ own
    rw [negate_of_extreme extreme] at negated
    exact absurd ((guarantees_setDistance_iff (by decide) (by decide)).mp negated) (by decide)
  · intro notExtreme value guaranteed
    have allowed := allows_negate_of_allows guaranteed.1
    by_cases constant : dep.isDistance = true
    · refine ⟨allowed, fun varying => ?_⟩
      have bounds := depDistance_bounds dep.bits
      have unequal : dep.distance ≠ -2048 := fun equal => notExtreme ⟨constant, equal⟩
      have least : -2048 < dep.distance := lt_of_le_of_ne bounds.1 unequal.symm
      have greatest : dep.distance ≤ 2047 := bounds.2
      rw [negate_of_distance constant, isDistance_setDistance (by omega) (by omega)] at varying
      cases varying
    · have varying := Bool.not_eq_true _ ▸ constant
      obtain ⟨own, named⟩ := dep.exists_direction
      obtain ⟨stored, bound, bits, small⟩ | same := bits_negate varying named
      · exact guarantees_of_setDist bits (negate_of_direction varying named).2 small allowed
      · refine ⟨allowed, fun _ => ?_⟩
        rw [same, Int.natAbs_neg]
        exact guaranteed.2 varying

theorem direction_unionDirection (named : dep.direction = some own) (direction : Direction) :
    (dep.unionDirection direction).direction = some (own.union direction) :=
  depDirection_union named direction

/-- A union with a direction keeps no constant distance but zero. -/
theorem allows_unionDirection_iff (named : dep.direction = some own)
    (direction : Direction) (value : Int) :
    (dep.unionDirection direction).Allows value ↔ own.Allows value ∨ direction.Allows value := by
  obtain ⟨rfl, rfl, same⟩ | ⟨varying, bound, same, nonConst, kept, -, small⟩ :=
    depUnionDirection_cases named direction
  · rw [bits_injective ((bits_unionDirection dep .eq).trans same), allows_of_eq named]
    exact or_self_iff.symm
  · have flag : (dep.unionDirection direction).isDistance = false := by
      rw [isDistance, bits_unionDirection, same, depIsDistance_setDist _
        (small.elim .inl fun atLeast => atLeast.small), nonConst]
    rw [← own.union_allows, Allows, flag, direction_unionDirection named]
    simp

theorem allows_union (allowed : dep.Allows value ∨ direction.Allows value) :
    (dep.unionDirection direction).Allows value := by
  obtain ⟨own, named⟩ := dep.exists_direction
  rw [allows_unionDirection_iff named]
  exact allowed.imp_left fun inside => inside.direction named

theorem guarantees_union (built : dep.Built)
    (allowed : dep.Guarantees value ∨ direction.Allows value) :
    (dep.unionDirection direction).Guarantees value := by
  have unioned := allows_union (allowed.imp_left And.left)
  obtain ⟨own, named⟩ := dep.exists_direction
  obtain ⟨rfl, rfl, same⟩ | ⟨varying, bound, same, -, -, -, small⟩ :=
    depUnionDirection_cases named direction
  · refine ⟨unioned, fun varying => ?_⟩
    rw [bits_injective ((bits_unionDirection dep .eq).trans same),
      built.isDistance_of_eq named] at varying
    cases varying
  · exact guarantees_of_setDist ((bits_unionDirection dep direction).trans same)
      (direction_unionDirection named direction) small unioned

end Laws

/-! ## Decomposition -/

/-- `DEP_Lex_Pos_Decompose`; `none` is the null pointer. -/
def lexPosDecompose (dep : Dep) (keepPosEquals keepNegEquals : Bool) : Option Dep × Option Dep :=
  if dep.direction = some .pos then
    (some dep, none)
  else if dep.direction = some .neg then
    (none, some dep.negate)
  else if dep.direction = some .posNeg then
    (some (setDirection .pos), some (setDirection .pos))
  else if dep.direction = some .posEq then
    (if keepPosEquals then some dep else some (setDirection .pos),
      if keepNegEquals then some (setDirection .eq) else none)
  else if dep.direction = some .negEq then
    (if keepPosEquals then some (setDirection .eq) else none,
      if keepNegEquals then some (setDirection .posEq)
      else some (setDirection .pos))
  else if dep.direction = some .star then
    (if keepPosEquals then some (setDirection .posEq)
      else some (setDirection .pos),
      if keepNegEquals then some (setDirection .posEq)
      else some (setDirection .pos))
  else
    (if keepPosEquals then some (setDirection .eq) else none,
      if keepNegEquals then some (setDirection .eq) else none)

/-- Whether a part contains the equal direction. -/
def hasEq (part : Option Dep) : Bool :=
  part.any fun dep =>
    dep.direction = some .posEq ∨ dep.direction = some .eq

/-- `DEP_Lex_Pos_Compose`, with `pos_has_eq` and `neg_has_eq`; two null
pointers are not an input. -/
def lexPosCompose : Option Dep → Option Dep → Option (Dep × Bool × Bool)
  | none, none => none
  | some pos, none => some (pos, hasEq (some pos), false)
  | none, some neg => some (neg.negate, false, hasEq (some neg))
  | some pos, some neg =>
      pos.direction.map fun direction =>
        (neg.negate.unionDirection direction, hasEq (some pos), hasEq (some neg))

theorem direction_negate_setDirection (direction : Direction) :
    (setDirection direction).negate.direction = some direction.opposite := by
  cases direction <;> decide

/-- Two parts are put together to a dependence with a direction. -/
def Composes (parts : Option Dep × Option Dep) (direction : Option Direction) : Prop :=
  ∃ composed posHasEq negHasEq,
    lexPosCompose parts.1 parts.2 = some (composed, posHasEq, negHasEq) ∧
      composed.direction = direction

theorem composes_pos {pos : Dep} {direction : Direction} (named : pos.direction = some direction) :
    Composes (some pos, none) (some direction) :=
  ⟨pos, _, _, rfl, named⟩

theorem composes_neg {neg : Dep} {direction : Direction}
    (named : neg.negate.direction = some direction) :
    Composes (none, some neg) (some direction) :=
  ⟨neg.negate, _, _, rfl, named⟩

theorem composes_both {pos : Dep} {direction : Direction} (named : pos.direction = some direction)
    (other : Direction) :
    Composes (some pos, some (setDirection other)) (some (other.opposite.union direction)) := by
  refine ⟨(setDirection other).negate.unionDirection direction,
    hasEq (some pos), hasEq (some (setDirection other)), ?_,
    direction_unionDirection (direction_negate_setDirection other) direction⟩
  simp only [lexPosCompose, named, Option.map_some]

/-- The negation of a negative dependence is negated back. -/
theorem direction_negate_negate {dep : Dep} (named : dep.direction = some .neg) :
    dep.negate.negate.direction = some .neg := by
  have positive := direction_negate_of_neg named
  by_cases constant : dep.negate.isDistance = true
  · rw [direction_of_distance constant, Option.some.injEq, distanceDirection] at positive
    have above : 0 < dep.negate.distance := by
      by_contra below
      grind
    have bounds : dep.negate.distance ≤ 2047 := (depDistance_bounds dep.negate.bits).2
    rw [negate_of_distance constant, direction_setDistance_iff.mpr (by omega),
      distanceDirection, if_neg (by omega), if_pos (by omega)]
  · exact (negate_of_direction (Bool.not_eq_true _ ▸ constant) positive).2

/-- A decomposition that keeps zero on a side is put together again. -/
theorem composes_lexPosDecompose
    {dep : Dep} {direction : Direction} {keepPosEquals keepNegEquals : Bool}
    (named : dep.direction = some direction) (kept : keepPosEquals = true ∨ keepNegEquals = true) :
    Composes (dep.lexPosDecompose keepPosEquals keepNegEquals) dep.direction := by
  rw [named]
  unfold lexPosDecompose
  cases direction with
  | pos =>
      rw [if_pos named]
      exact composes_pos named
  | neg =>
      simp only [named, Option.some.injEq, reduceCtorEq, if_true, if_false]
      exact composes_neg (direction_negate_negate named)
  | posNeg =>
      simp only [named, Option.some.injEq, reduceCtorEq, if_true, if_false]
      exact composes_both (direction_setDirection .pos) .pos
  | posEq =>
      simp only [named, Option.some.injEq, reduceCtorEq, if_true, if_false]
      cases keepPosEquals <;> cases keepNegEquals
      · cases kept <;> contradiction
      · exact composes_both (direction_setDirection .pos) .eq
      · exact composes_pos named
      · exact composes_both named .eq
  | negEq =>
      simp only [named, Option.some.injEq, reduceCtorEq, if_true, if_false]
      cases keepPosEquals <;> cases keepNegEquals
      · cases kept <;> contradiction
      · exact composes_neg (direction_negate_setDirection .posEq)
      · exact composes_both (direction_setDirection .eq) .pos
      · exact composes_both (direction_setDirection .eq) .posEq
  | star =>
      simp only [named, Option.some.injEq, reduceCtorEq, if_true, if_false]
      cases keepPosEquals <;> cases keepNegEquals
      · cases kept <;> contradiction
      · exact composes_both (direction_setDirection .pos) .posEq
      · exact composes_both (direction_setDirection .posEq) .pos
      · exact composes_both (direction_setDirection .posEq) .posEq
  | eq =>
      simp only [named, Option.some.injEq, reduceCtorEq, if_false]
      cases keepPosEquals <;> cases keepNegEquals
      · cases kept <;> contradiction
      · exact composes_neg (direction_negate_setDirection .eq)
      · exact composes_pos (direction_setDirection .eq)
      · exact composes_both (direction_setDirection .eq) .eq

end Dep

/-! ## Over-approximation -/

/--
What the operations promise about the integers that a dependence denotes, for a
distance, a dependence, a direction, and the sides of a decomposition that keep
zero.
-/
structure OverApproximates (denotes : Dep → Int → Prop) (distance : Int)
    (dep : Dep) (direction : Direction) (keepPosEquals keepNegEquals : Bool) :
    Prop where
  setDistance : denotes (.setDistance distance) distance
  sign : (Dep.setDistance distance).direction = some (distanceDirection distance)
  negate : ∀ value, denotes dep value → denotes dep.negate (-value)
  union : ∀ value, denotes dep value ∨ direction.Allows value →
    denotes (dep.unionDirection direction) value
  valid : (dep.unionDirection direction).direction ≠ none
  compose : keepPosEquals = true ∨ keepNegEquals = true →
    Dep.Composes (dep.lexPosDecompose keepPosEquals keepNegEquals) dep.direction

/--
The operations over-approximate the integers for the distances from -2048 on.
They keep the promise of the bound where the distance and its negation, and
the negation of the dependence, have twelve bits.
-/
theorem overApproximates_iff {distance : Int} {dep : Dep} (low : -2 ^ 31 ≤ distance)
    (high : distance < 2 ^ 31) (built : dep.Built)
    (direction : Direction) (keepPosEquals keepNegEquals : Bool) :
    (OverApproximates Dep.Allows distance dep direction keepPosEquals
        keepNegEquals ↔ -2048 ≤ distance) ∧
      (OverApproximates Dep.Guarantees distance dep direction keepPosEquals
        keepNegEquals ↔ -2048 ≤ distance ∧ distance ≤ 2047 ∧ ¬dep.IsExtreme) := by
  obtain ⟨own, named⟩ := dep.exists_direction
  have valid : (dep.unionDirection direction).direction ≠ none := by
    rw [Dep.direction_unionDirection named]
    exact Option.some_ne_none _
  have compose (kept : keepPosEquals = true ∨ keepNegEquals = true) :
      Dep.Composes (dep.lexPosDecompose keepPosEquals keepNegEquals) dep.direction :=
    Dep.composes_lexPosDecompose named kept
  constructor
  · refine ⟨fun promised => Dep.direction_setDistance_iff.mp promised.sign,
      fun least => ⟨Dep.allows_setDistance_iff.mpr least,
        Dep.direction_setDistance_iff.mpr least, fun _ => Dep.allows_negate_of_allows,
        fun _ => Dep.allows_union, valid, compose⟩⟩
  · constructor
    · intro promised
      obtain ⟨least, greatest⟩ := (Dep.guarantees_setDistance_iff low high).mp promised.setDistance
      exact ⟨least, greatest, Dep.guarantees_negate_iff.mp promised.negate⟩
    · rintro ⟨least, greatest, notExtreme⟩
      exact ⟨(Dep.guarantees_setDistance_iff low high).mpr ⟨least, greatest⟩,
        Dep.direction_setDistance_iff.mpr least,
        Dep.guarantees_negate_iff.mpr notExtreme,
        fun _ => Dep.guarantees_union built, valid, compose⟩

/-- The distance 5 and the direction `DIR_NEG`. -/
theorem overApproximates_five :
    (OverApproximates Dep.Allows 5 (.setDistance 5) .neg true false ↔
        (-2048 : Int) ≤ 5) ∧
      (OverApproximates Dep.Guarantees 5 (.setDistance 5) .neg true false ↔
        (-2048 : Int) ≤ 5 ∧ (5 : Int) ≤ 2047 ∧ ¬(Dep.setDistance 5).IsExtreme) :=
  overApproximates_iff (by decide) (by decide)
    (.setDistance 5 (by decide) (by decide)) .neg true false

/-- The distance -3000 becomes the positive direction. -/
theorem not_overApproximates :
    ¬∀ (distance : Int) (dep : Dep) (direction : Direction)
      (keepPosEquals keepNegEquals : Bool),
      -2 ^ 31 ≤ distance → distance < 2 ^ 31 → dep.Built →
        OverApproximates Dep.Allows distance dep direction keepPosEquals
          keepNegEquals := by
  intro all
  have promised := all (-3000) (.setDirection .eq) .eq true true (by decide)
    (by decide) (.setDirection .eq)
  exact absurd promised.sign (by decide)

end OpenUH.Lno.Dependence
