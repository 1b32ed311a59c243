import Mathlib.Algebra.Order.Ring.Int

/-!
# One dimension of a dependence vector

`be/com/dvector.h` packs a dependence into sixteen bits.  Bit 15 says that
the distance is constant, bits 12 to 14 hold a union of directions, and the
low twelve bits hold the distance (or a bound on it) with an offset of 2048.

`Dep` carries the invariant of the packing.  A constant distance has the
direction of its sign, and a dependence without one names a direction.
-/

namespace OpenUH.Lno.Dependence

/-! ## The packed representation -/

/-- `DIRECTION`. -/
inductive Direction where
  | pos
  | neg
  | eq
  | posNeg
  | posEq
  | negEq
  | star
deriving DecidableEq, Repr

/-- The enumeration values of `DIRECTION`. -/
def Direction.code : Direction → BitVec 16
  | .pos => 1
  | .neg => 2
  | .eq => 4
  | .posNeg => 3
  | .posEq => 5
  | .negEq => 6
  | .star => 7

/-- The cast of an integer to `DIRECTION`, when it is one of its values. -/
def Direction.ofCode (code : BitVec 16) : Option Direction :=
  if code = 1 then some .pos
  else if code = 2 then some .neg
  else if code = 4 then some .eq
  else if code = 3 then some .posNeg
  else if code = 5 then some .posEq
  else if code = 6 then some .negEq
  else if code = 7 then some .star
  else none

/-- The sixteen bits of a `DEP`. -/
abbrev DepBits := BitVec 16

/-- `DISTANCE_FLAG_PRIVATE`. -/
def distanceFlagPrivate : DepBits := 0x8000

/-- `DISTANCE_MASK_PRIVATE`. -/
def distanceMaskPrivate : DepBits := 0x0FFF

/-- `DISTANCE_OFFSET_PRIVATE`. -/
def distanceOffsetPrivate : Int := 2048

/-- `DIRECTION_MASK_PRIVATE`. -/
def directionMaskPrivate : DepBits := 0x7000

/-- `MAX_BOUND_PRIVATE`. -/
def maxBoundPrivate : Int := 4095

/-- `MAX_DISTANCE_PRIVATE`. -/
def maxDistancePrivate : Int := 2047

/-- `MIN_DISTANCE_PRIVATE`. -/
def minDistancePrivate : Int := -2048

/-- `DEP_IsDistance`. -/
def depIsDistance (dep : DepBits) : Bool :=
  dep &&& distanceFlagPrivate != 0

/-- `DEP_Distance`, defined where `depIsDistance` holds. -/
def depDistance (dep : DepBits) : Int :=
  (dep &&& distanceMaskPrivate).toNat - distanceOffsetPrivate

/-- `DEP_Direction`. -/
def depDirection (dep : DepBits) : Option Direction :=
  Direction.ofCode ((dep &&& directionMaskPrivate) >>> 12)

/-- `DEP_MAKE_DIST_CONST_PRIVATE`. -/
def depMakeDistConstPrivate (dep : DepBits) : DepBits :=
  dep ||| distanceFlagPrivate

/-- `DEP_MAKE_DIST_NON_CONST_PRIVATE`. -/
def depMakeDistNonConstPrivate (dep : DepBits) : DepBits :=
  dep &&& ~~~distanceFlagPrivate

/-- `DEP_SET_DIR_PRIVATE`. -/
def depSetDirPrivate (dep : DepBits) (direction : Direction) : DepBits :=
  (dep &&& ~~~directionMaskPrivate) ||| (direction.code <<< 12)

/-- `DEP_SET_DIST_PRIVATE`. -/
def depSetDistPrivate (dep : DepBits) (distance : Int) : DepBits :=
  (dep &&& ~~~distanceMaskPrivate) |||
    BitVec.ofInt 16 (distance + distanceOffsetPrivate)

/-- `DEP_SetDistance`. -/
def depSetDistance (distance : Int) : DepBits :=
  let (dep, distance) :=
    if distance > maxDistancePrivate then
      (depMakeDistNonConstPrivate 0, maxBoundPrivate)
    else if distance < minDistancePrivate then
      (depMakeDistNonConstPrivate 0, maxBoundPrivate)
    else
      (depMakeDistConstPrivate 0, distance)
  let dep :=
    if distance > 0 then depSetDirPrivate dep .pos
    else if distance < 0 then depSetDirPrivate dep .neg
    else depSetDirPrivate dep .eq
  depSetDistPrivate dep distance

/-- `DEP_SetDirection`. -/
def depSetDirection (direction : Direction) : DepBits :=
  if direction = .eq then
    depSetDistance 0
  else
    let dep := depSetDirPrivate (depMakeDistNonConstPrivate 0) direction
    if direction = .pos then depSetDistPrivate dep 1
    else if direction = .neg then depSetDistPrivate dep 1
    else depSetDistPrivate dep 0

/-- `DEP_Negate`. -/
def depNegate (dep : DepBits) : DepBits :=
  if depIsDistance dep then
    depSetDistance (-depDistance dep)
  else
    let tmp := depMakeDistNonConstPrivate 0
    if depDirection dep = some .pos then
      depSetDistPrivate (depSetDirPrivate tmp .neg) 1
    else if depDirection dep = some .neg then
      depSetDistPrivate (depSetDirPrivate tmp .pos) 1
    else if depDirection dep = some .posEq then
      depSetDistPrivate (depSetDirPrivate tmp .negEq) 0
    else if depDirection dep = some .negEq then
      depSetDistPrivate (depSetDirPrivate tmp .posEq) 0
    else
      dep

/-! ## Well-formed dependences -/

/-- The direction that the sign of a distance names. -/
def distanceDirection (distance : Int) : Direction :=
  if distance > 0 then .pos
  else if distance < 0 then .neg
  else .eq

/-- What every dependence built by the interface satisfies. -/
def WellFormed (dep : DepBits) : Prop :=
  if depIsDistance dep then
    depDirection dep = some (distanceDirection (depDistance dep))
  else
    depDirection dep ≠ none

instance (dep : DepBits) : Decidable (WellFormed dep) := by
  unfold WellFormed
  infer_instance

theorem depDistance_bounds (dep : DepBits) : -2048 ≤ depDistance dep ∧ depDistance dep ≤ 2047 := by
  have small : (dep &&& distanceMaskPrivate).toNat ≤ 4095 := by
    rw [BitVec.toNat_and]
    exact Nat.and_le_right
  unfold depDistance distanceOffsetPrivate
  omega

/-- Every distance of twelve bits, as 64 rows of 64 distances. -/
theorem depSetDistance_table :
    ∀ row column : Fin 64,
      let distance : Int := 64 * row + column - 2048
      depIsDistance (depSetDistance distance) = true ∧
        depDistance (depSetDistance distance) = distance ∧
        depDirection (depSetDistance distance) = some (distanceDirection distance) := by
  decide +kernel

/-- A distance within the twelve bits is stored as it is. -/
theorem depSetDistance_within {distance : Int} (least : -2048 ≤ distance)
    (greatest : distance ≤ 2047) :
    depIsDistance (depSetDistance distance) = true ∧
      depDistance (depSetDistance distance) = distance ∧
      depDirection (depSetDistance distance) = some (distanceDirection distance) := by
  have entry := depSetDistance_table
    ⟨((distance + 2048) / 64).toNat, by omega⟩
    ⟨((distance + 2048) % 64).toNat, by omega⟩
  have value :
      64 * ((((distance + 2048) / 64).toNat : Nat) : Int) +
        (((distance + 2048) % 64).toNat : Nat) - 2048 = distance := by
    omega
  simpa only [value] using entry

/-- A distance that does not fit becomes the positive direction. -/
theorem depSetDistance_overflow {distance : Int} (outside : distance < -2048 ∨ 2047 < distance) :
    depSetDistance distance = 0x17FF := by
  have widened :
      (if distance > maxDistancePrivate then
        (depMakeDistNonConstPrivate 0, maxBoundPrivate)
      else if distance < minDistancePrivate then
        (depMakeDistNonConstPrivate 0, maxBoundPrivate)
      else
        (depMakeDistConstPrivate 0, distance)) =
      (depMakeDistNonConstPrivate 0, maxBoundPrivate) := by
    unfold maxDistancePrivate minDistancePrivate
    rcases outside with small | large
    · rw [if_neg (by omega), if_pos small]
    · rw [if_pos large]
  unfold depSetDistance
  rw [widened]
  decide

theorem wellFormed_setDistance (distance : Int) : WellFormed (depSetDistance distance) := by
  by_cases within : -2048 ≤ distance ∧ distance ≤ 2047
  · obtain ⟨constant, value, direction⟩ :=
      depSetDistance_within within.1 within.2
    rw [WellFormed, if_pos constant, direction, value]
  · rw [depSetDistance_overflow (by omega)]
    decide

theorem wellFormed_setDirection (direction : Direction) :
    WellFormed (depSetDirection direction) := by
  cases direction <;> decide

theorem wellFormed_negate {dep : DepBits} (wellFormed : WellFormed dep) :
    WellFormed (depNegate dep) := by
  unfold depNegate
  split
  case isTrue => exact wellFormed_setDistance _
  case isFalse =>
    split
    · decide
    split
    · decide
    split
    · decide
    split
    · decide
    exact wellFormed

/-! ## Dependences and the integers they allow -/

/-- A `DEP`, with the invariant of its packing. -/
structure Dep where
  bits : DepBits
  wellFormed : WellFormed bits
deriving DecidableEq

namespace Dep

/-- `DEP_SetDirection`. -/
def setDirection (direction : Direction) : Dep :=
  ⟨depSetDirection direction, wellFormed_setDirection direction⟩

/-- `DEP_SetDistance`. -/
def setDistance (distance : Int) : Dep :=
  ⟨depSetDistance distance, wellFormed_setDistance distance⟩

/-- `DEP_Negate`. -/
def negate (dep : Dep) : Dep :=
  ⟨depNegate dep.bits, wellFormed_negate dep.wellFormed⟩

/-- `DEP_IsDistance`. -/
def isDistance (dep : Dep) : Bool :=
  depIsDistance dep.bits

/-- `DEP_Distance`. -/
def distance (dep : Dep) : Int :=
  depDistance dep.bits

/-- `DEP_Direction`. -/
def direction (dep : Dep) : Option Direction :=
  depDirection dep.bits

end Dep

/-- The integers of a direction. -/
def Direction.Allows : Direction → Int → Prop
  | .pos, value => 0 < value
  | .neg, value => value < 0
  | .eq, value => value = 0
  | .posNeg, value => 0 < value ∨ value < 0
  | .posEq, value => 0 < value ∨ value = 0
  | .negEq, value => value < 0 ∨ value = 0
  | .star, _ => True

/-- The direction of the negated integers. -/
def Direction.opposite : Direction → Direction
  | .pos => .neg
  | .neg => .pos
  | .eq => .eq
  | .posNeg => .posNeg
  | .posEq => .negEq
  | .negEq => .posEq
  | .star => .star

attribute [simp] Direction.opposite

theorem Direction.opposite_allows (direction : Direction) (value : Int) :
    direction.opposite.Allows value ↔ direction.Allows (-value) := by
  cases direction <;> (simp [opposite, Allows]; try omega)

/-- The integers that a dependence allows in its dimension. -/
def Dep.Allows (dep : Dep) (value : Int) : Prop :=
  if dep.isDistance then
    value = dep.distance
  else
    ∃ direction, dep.direction = some direction ∧ direction.Allows value

/-- The one distance whose negation does not fit. -/
def Dep.IsExtreme (dep : Dep) : Prop :=
  dep.isDistance ∧ dep.distance = minDistancePrivate

instance (dep : Dep) : Decidable dep.IsExtreme := by
  unfold Dep.IsExtreme
  infer_instance

namespace Dep

variable {dep : Dep}

/-- A constant distance has the direction of its sign. -/
theorem direction_of_distance (constant : dep.isDistance = true) :
    dep.direction = some (distanceDirection dep.distance) := by
  have wellFormed := dep.wellFormed
  unfold isDistance at constant
  rw [WellFormed, if_pos constant] at wellFormed
  exact wellFormed

/-- Every dependence names a direction. -/
theorem exists_direction (dep : Dep) : ∃ direction, dep.direction = some direction := by
  by_cases constant : dep.isDistance = true
  · exact ⟨_, direction_of_distance constant⟩
  · have wellFormed := dep.wellFormed
    unfold isDistance at constant
    rw [WellFormed, if_neg constant] at wellFormed
    exact Option.ne_none_iff_exists'.1 wellFormed

theorem distanceDirection_allows (distance : Int) :
    (distanceDirection distance).Allows distance := by
  unfold distanceDirection
  split
  case isTrue positive => exact positive
  case isFalse =>
    split
    case isTrue negative => exact negative
    case isFalse => exact (by omega : distance = 0)

/-- The direction covers every integer that the dependence allows. -/
theorem Allows.direction {direction : Direction} {value : Int}
    (allowed : dep.Allows value) (named : dep.direction = some direction) :
    direction.Allows value := by
  unfold Allows at allowed
  split at allowed
  case isTrue constant =>
    rw [direction_of_distance constant, Option.some.injEq] at named
    rw [← named, allowed]
    exact distanceDirection_allows _
  case isFalse =>
    obtain ⟨other, same, inside⟩ := allowed
    rw [named, Option.some.injEq] at same
    exact same ▸ inside

/-- Without a constant distance the direction is all there is. -/
theorem allows_iff_direction {direction : Direction} (named : dep.direction = some direction)
    (union : direction ≠ .pos ∧ direction ≠ .neg ∧ direction ≠ .eq) (value : Int) :
    dep.Allows value ↔ direction.Allows value := by
  have varying : ¬ dep.isDistance = true := by
    intro constant
    rw [direction_of_distance constant, Option.some.injEq] at named
    unfold distanceDirection at named
    grind
  unfold Allows
  rw [if_neg varying]
  simp [named]

/-- The equal direction allows zero only. -/
theorem allows_of_eq (named : dep.direction = some .eq) (value : Int) :
    dep.Allows value ↔ value = 0 := by
  unfold Allows
  split
  case isTrue constant =>
    rw [direction_of_distance constant, Option.some.injEq] at named
    have zero : dep.distance = 0 := by
      unfold distanceDirection at named
      grind
    rw [zero]
  case isFalse =>
    simp [named, Direction.Allows]

@[simp]
theorem direction_setDirection (direction : Direction) :
    (setDirection direction).direction = some direction := by
  cases direction <;> decide

/-- `setDirection` allows what its direction allows. -/
@[simp]
theorem allows_setDirection (direction : Direction) (value : Int) :
    (setDirection direction).Allows value ↔ direction.Allows value := by
  by_cases equal : direction = .eq
  · subst equal
    exact allows_of_eq (direction_setDirection _) value
  · have varying : (setDirection direction).isDistance = false := by
      cases direction <;> first | decide | exact absurd rfl equal
    unfold Allows
    rw [if_neg (by simp [varying])]
    simp

/-! ## Negation -/

theorem isDistance_setDistance {distance : Int} (least : -2048 ≤ distance)
    (greatest : distance ≤ 2047) :
    (setDistance distance).isDistance = true :=
  (depSetDistance_within least greatest).1

theorem distance_setDistance {distance : Int} (least : -2048 ≤ distance)
    (greatest : distance ≤ 2047) :
    (setDistance distance).distance = distance :=
  (depSetDistance_within least greatest).2.1

theorem negate_of_distance (constant : dep.isDistance = true) :
    dep.negate = setDistance (-dep.distance) := by
  have same : depNegate dep.bits = depSetDistance (-dep.distance) := by
    unfold isDistance at constant
    rw [depNegate, if_pos constant]
    rfl
  unfold negate setDistance
  simp only [same]

/-- The negation of the least distance keeps the direction only. -/
theorem negate_of_extreme (extreme : dep.IsExtreme) :
    dep.negate = setDistance 2048 := by
  rw [negate_of_distance extreme.1, extreme.2]
  rfl

theorem allows_negate_of_extreme (extreme : dep.IsExtreme) (value : Int) :
    dep.negate.Allows value ↔ 0 < value := by
  have varying : ¬ (setDistance 2048).isDistance = true := by decide
  have named : (setDistance 2048).direction = some .pos := by decide
  rw [negate_of_extreme extreme, Allows, if_neg varying]
  simp [named, Direction.Allows]

/-- Without a constant distance `DEP_Negate` reverses the direction. -/
theorem negate_of_direction {direction : Direction} (varying : dep.isDistance = false)
    (named : dep.direction = some direction) :
    dep.negate.isDistance = false ∧ dep.negate.direction = some direction.opposite := by
  unfold isDistance at varying
  unfold Dep.direction at named
  unfold isDistance Dep.direction negate depNegate
  simp only [varying, named, Option.some.injEq, Bool.false_eq_true, if_false]
  cases direction with
  | pos => simp only [if_true]; decide
  | neg | posEq | negEq => simp only [reduceCtorEq, if_false, if_true]; decide
  | eq | posNeg | star => simpa using And.intro varying named

/-- Negation is exact everywhere but at the least distance. -/
theorem allows_negate (notExtreme : ¬ dep.IsExtreme) (value : Int) :
    dep.negate.Allows value ↔ dep.Allows (-value) := by
  by_cases constant : dep.isDistance = true
  · have bounds := depDistance_bounds dep.bits
    have unequal : dep.distance ≠ -2048 := fun equal =>
      notExtreme ⟨constant, equal⟩
    have least : -2048 < dep.distance := lt_of_le_of_ne bounds.1 (Ne.symm unequal)
    have greatest : dep.distance ≤ 2047 := bounds.2
    rw [negate_of_distance constant, Allows, Allows, if_pos constant,
      if_pos (isDistance_setDistance (by omega) (by omega)),
      distance_setDistance (by omega) (by omega)]
    omega
  · have varying : dep.isDistance = false := by
      simpa using constant
    obtain ⟨direction, named⟩ := exists_direction dep
    obtain ⟨negateVarying, negateNamed⟩ := negate_of_direction varying named
    simp only [Allows, varying, named, negateVarying, negateNamed]
    simpa using Direction.opposite_allows direction value

/-- A negative dependence becomes a positive one. -/
theorem direction_negate_of_neg (named : dep.direction = some .neg) :
    dep.negate.direction = some .pos := by
  by_cases constant : dep.isDistance = true
  · rw [direction_of_distance constant, Option.some.injEq] at named
    have negative : dep.distance < 0 := by
      unfold distanceDirection at named
      grind
    have least : -2048 ≤ dep.distance := (depDistance_bounds dep.bits).1
    rw [negate_of_distance constant]
    by_cases extreme : dep.distance = -2048
    · rw [extreme]
      decide
    · have stored :
          (setDistance (-dep.distance)).direction = some (distanceDirection (-dep.distance)) :=
        (depSetDistance_within (by omega) (by omega)).2.2
      rw [stored, distanceDirection, if_pos (by omega)]
  · exact (negate_of_direction (by simpa using constant) named).2

end Dep

end OpenUH.Lno.Dependence
