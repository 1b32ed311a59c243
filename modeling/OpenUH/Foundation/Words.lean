import Mathlib.Tactic.Linarith
import Mathlib.Tactic.Ring

/-!
# Words of unbounded integers

A word stands for the integers of one residue class.  The operations of a
machine on words are operations on these integers; what has to be shown for a
sequence of them is only that its last result is in the range of the words.
-/

namespace OpenUH.Foundation.Words

variable {width wide amount : Nat} {value other : Int}

/-- Quotients by powers of two stay in the range. -/
theorem ediv_two_pow_range (bound : Nat) (low : -2 ^ bound ≤ value) (high : value < 2 ^ bound) :
    -2 ^ bound ≤ value / 2 ^ amount ∧ value / 2 ^ amount < 2 ^ bound := by
  have power : (0 : Int) < 2 ^ amount := by positivity
  constructor
  · rw [Int.le_ediv_iff_mul_le power]
    have more : (2 : Int) ^ bound ≤ 2 ^ bound * 2 ^ amount :=
      le_mul_of_one_le_right (by positivity) power
    linarith
  · rw [Int.ediv_lt_iff_lt_mul power]
    have more : (2 : Int) ^ bound ≤ 2 ^ bound * 2 ^ amount :=
      le_mul_of_one_le_right (by positivity) power
    linarith

theorem ofInt_sub :
    BitVec.ofInt width (value - other) = BitVec.ofInt width value - BitVec.ofInt width other := by
  rw [Int.sub_eq_add_neg, BitVec.ofInt_add, BitVec.ofInt_neg, BitVec.sub_eq_add_neg]

/-- An arithmetic shift divides. -/
theorem sshiftRight_ofInt (positive : 0 < width)
    (low : -2 ^ (width - 1) ≤ value) (high : value < 2 ^ (width - 1)) :
    (BitVec.ofInt width value).sshiftRight amount = BitVec.ofInt width (value / 2 ^ amount) := by
  obtain ⟨lowQuotient, highQuotient⟩ := @ediv_two_pow_range amount value _ low high
  refine BitVec.eq_of_toInt_eq ?_
  rw [BitVec.toInt_sshiftRight, BitVec.toInt_ofInt_eq_self positive low high,
    BitVec.toInt_ofInt_eq_self positive lowQuotient highQuotient,
    Int.shiftRight_eq_div_pow]
  norm_cast

/-- The upper part of a word divides, whatever was lost above it. -/
theorem setWidth_ushiftRight_ofInt (fits : width + amount ≤ wide) :
    ((BitVec.ofInt wide value) >>> amount).setWidth width =
      BitVec.ofInt width (value / 2 ^ amount) := by
  obtain ⟨rest, rfl⟩ : ∃ rest, wide = width + rest + amount := ⟨wide - amount - width, by omega⟩
  have split := Int.emod_add_mul_ediv value (2 ^ (width + rest + amount))
  have quotient : value / 2 ^ amount =
      value % 2 ^ (width + rest + amount) / 2 ^ amount +
        2 ^ width * (2 ^ rest * (value / 2 ^ (width + rest + amount))) := by
    conv_lhs => rw [← split]
    have scale : (2 : Int) ^ (width + rest + amount) *
        (value / 2 ^ (width + rest + amount)) =
          2 ^ amount * (2 ^ width * (2 ^ rest * (value / 2 ^ (width + rest + amount)))) := by
      rw [pow_add 2 (width + rest) amount, pow_add 2 width rest]
      ring
    rw [scale, Int.add_mul_ediv_left _ _ (by positivity)]
  have rests : value / 2 ^ amount % 2 ^ width =
      value % 2 ^ (width + rest + amount) / 2 ^ amount % 2 ^ width := by
    rw [quotient, Int.add_mul_emod_self_left]
  refine BitVec.eq_of_toNat_eq ?_
  rw [BitVec.toNat_setWidth, BitVec.toNat_ushiftRight, BitVec.toNat_ofInt,
    BitVec.toNat_ofInt, Nat.shiftRight_eq_div_pow]
  have positive : 0 ≤ value % 2 ^ (width + rest + amount) := Int.emod_nonneg _ (by positivity)
  obtain ⟨low, lowIs⟩ := Int.eq_ofNat_of_zero_le positive
  push_cast
  rw [rests, lowIs]
  norm_cast

/-- The lower part of a word. -/
theorem setWidth_ofInt (fits : width ≤ wide) :
    (BitVec.ofInt wide value).setWidth width = BitVec.ofInt width value := by
  have whole := @setWidth_ushiftRight_ofInt width wide 0 value fits
  rwa [BitVec.ushiftRight_zero, pow_zero, Int.ediv_one] at whole

end OpenUH.Foundation.Words
