import Mathlib.Algebra.Order.Ring.Int

/-!
# Signed integers among unsigned sizes

Programs that compute sizes mix a signed type of 32 bits with an unsigned one of
64 bits.  Signed operations are checked: one whose result does not fit has no
result.  Unsigned operations and the conversions between the two types reduce
their results.  The rules say when nothing is lost.
-/

namespace OpenUH.Foundation.MachineIntegers

/-- The values of the signed type. -/
def InInt (value : Int) : Prop :=
  -2 ^ 31 ≤ value ∧ value < 2 ^ 31

instance decidableInInt (value : Int) : Decidable (InInt value) :=
  inferInstanceAs (Decidable (_ ∧ _))

/-- The result of a signed operation, where it fits. -/
def checked (value : Int) : Option Int :=
  if InInt value then some value else none

/-- The signed quotient, rounded towards zero. -/
def divideInt (first second : Int) : Option Int :=
  if second = 0 then none else checked (first.tdiv second)

/-- The conversion to the signed type. -/
def intOfSize (value : Nat) : Int :=
  Int.bmod value (2 ^ 32)

/-- The conversion to the unsigned type. -/
def sizeOfInt (value : Int) : Nat :=
  (value % 2 ^ 64).toNat

/-- The unsigned product. -/
def sizeMul (first second : Nat) : Nat :=
  first * second % 2 ^ 64

/-- The unsigned sum. -/
def sizeAdd (first second : Nat) : Nat :=
  (first + second) % 2 ^ 64

/-- The unsigned difference. -/
def sizeSub (first second : Nat) : Nat :=
  (first + (2 ^ 64 - second)) % 2 ^ 64

/-! ## Signed operations -/

theorem checked_of_inInt {value : Int} (fits : InInt value) : checked value = some value :=
  if_pos fits

theorem checked_of_not_inInt {value : Int} (wide : ¬ InInt value) : checked value = none :=
  if_neg wide

theorem checked_eq_some_iff {value result : Int} :
    checked value = some result ↔ InInt value ∧ value = result := by
  unfold checked
  split
  case isTrue fits => simp [fits]
  case isFalse wide => simp [wide]

variable {value : Nat}

theorem inInt_natCast (fits : value < 2 ^ 31) : InInt value := by
  unfold InInt
  omega

/-- A signed operation on natural numbers. -/
theorem checked_natCast (fits : value < 2 ^ 31) :
    checked (value : Int) = some (value : Int) :=
  checked_of_inInt (inInt_natCast fits)

theorem checked_natCast_of_le (wide : 2 ^ 31 ≤ value) :
    checked (value : Int) = none := by
  apply checked_of_not_inInt
  unfold InInt
  omega

theorem divideInt_eq_some {first second result : Int}
    (divided : divideInt first second = some result) :
    first.tdiv second = result := by
  unfold divideInt at divided
  split at divided
  case isTrue zero => cases divided
  case isFalse nonzero => exact (checked_eq_some_iff.1 divided).2

theorem divideInt_natCast {first second : Nat} (fits : first < 2 ^ 31) (positive : 0 < second) :
    divideInt (first : Int) (second : Int) = some ((first / second : Nat) : Int) := by
  have nonzero : (second : Int) ≠ 0 := by omega
  rw [divideInt, if_neg nonzero, ← Int.ofNat_tdiv]
  exact checked_natCast ((Nat.div_le_self _ _).trans_lt fits)

/-! ## Conversions -/

theorem intOfSize_inInt (value : Nat) : InInt (intOfSize value) := by
  have low := @Int.le_bmod value (2 ^ 32) (by decide)
  have high := @Int.bmod_lt value (2 ^ 32) (by decide)
  unfold InInt intOfSize
  omega

/-- A number that fits is converted as it is. -/
theorem intOfSize_of_lt (fits : value < 2 ^ 31) : intOfSize value = value := by
  unfold intOfSize
  rw [Int.bmod_eq_of_le (by omega) (by omega)]

theorem intOfSize_eq_iff : intOfSize value = value ↔ value < 2 ^ 31 := by
  constructor
  · intro same
    have range := intOfSize_inInt value
    rw [same] at range
    unfold InInt at range
    omega
  · exact intOfSize_of_lt

theorem intOfSize_le (value : Nat) : intOfSize value ≤ value := by
  unfold intOfSize
  have := @Int.bmod_def value (2 ^ 32)
  omega

@[simp]
theorem intOfSize_mod (value : Nat) : intOfSize (value % 2 ^ 64) = intOfSize value := by
  unfold intOfSize
  have := @Int.bmod_def (value % 2 ^ 64 : Nat) (2 ^ 32)
  have := @Int.bmod_def value (2 ^ 32)
  omega

theorem sizeOfInt_natCast (fits : value < 2 ^ 64) :
    sizeOfInt (value : Int) = value := by
  unfold sizeOfInt
  omega

/-- A negative number becomes a very large one. -/
theorem le_sizeOfInt_of_neg {value : Int} (range : InInt value) (negative : value < 0) :
    2 ^ 64 - 2 ^ 31 ≤ sizeOfInt value := by
  unfold InInt at range
  unfold sizeOfInt
  omega

/-! ## Unsigned operations -/

theorem sizeMul_of_lt {first second : Nat} (fits : first * second < 2 ^ 64) :
    sizeMul first second = first * second :=
  Nat.mod_eq_of_lt fits

/-- The unsigned product of a converted number is its converted product. -/
theorem sizeMul_sizeOfInt (value : Int) (factor : Nat) :
    sizeMul (sizeOfInt value) factor = sizeOfInt (value * factor) := by
  have nonneg : 0 ≤ value % 2 ^ 64 := Int.emod_nonneg _ (by decide)
  apply Int.ofNat_inj.1
  rw [sizeMul, sizeOfInt, sizeOfInt, Int.natCast_emod, Int.natCast_mul,
    Int.toNat_of_nonneg nonneg,
    Int.toNat_of_nonneg (Int.emod_nonneg _ (by decide))]
  push_cast
  rw [Int.mul_emod, Int.emod_emod, ← Int.mul_emod]

theorem sizeAdd_of_lt {first second : Nat} (fits : first + second < 2 ^ 64) :
    sizeAdd first second = first + second :=
  Nat.mod_eq_of_lt fits

theorem sizeSub_of_le {first second : Nat} (fits : first < 2 ^ 64) (ordered : second ≤ first) :
    sizeSub first second = first - second := by
  unfold sizeSub
  omega

end OpenUH.Foundation.MachineIntegers
