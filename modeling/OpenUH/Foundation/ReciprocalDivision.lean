import Mathlib.Tactic.Linarith
import Mathlib.Tactic.Ring

/-!
# Division by a scaled reciprocal

A divisor `d` is replaced by a multiplier `m` with `d * m = scale + e`.  The
product with `m`, divided by the scale, is the quotient by `d` as long as the
error `e` is small for the numerators in question.
-/

namespace OpenUH.Foundation.Reciprocal

variable {n d m e scale bound : Nat}

/-- Rounded down, the product is the quotient. -/
theorem mul_div_eq (scaled : d * m = scale + e) (positive : 0 < d)
    (small : n * e < scale * (d - n % d)) : n * m / scale = n / d := by
  have split : d * (n / d) + n % d = n := Nat.div_add_mod n d
  have below : n % d < d := Nat.mod_lt n positive
  have product : d * (n * m) = n * scale + n * e := by
    calc d * (n * m) = n * (d * m) := by ring
      _ = n * scale + n * e := by rw [scaled, Nat.mul_add]
  refine Nat.div_eq_of_lt_le ?_ ?_
  · refine Nat.le_of_mul_le_mul_left ?_ positive
    calc d * (n / d * scale) = d * (n / d) * scale := by ring
      _ ≤ n * scale := Nat.mul_le_mul_right _ (by omega)
      _ ≤ d * (n * m) := by omega
  · refine Nat.lt_of_mul_lt_mul_left (a := d) ?_
    have room : n + (d - n % d) = d * (n / d + 1) := by
      rw [Nat.mul_succ]
      omega
    calc d * (n * m) = n * scale + n * e := product
      _ < n * scale + scale * (d - n % d) := by omega
      _ = (n + (d - n % d)) * scale := by ring
      _ = d * ((n / d + 1) * scale) := by
          rw [room]
          ring

/-- Rounded up, the product is the next larger number than the quotient. -/
theorem between_of_error (scaled : d * m = scale + e) (positive : 0 < d)
    (numerator : 0 < n) (error : 0 < e) (small : n * e ≤ scale * (d - n % d)) :
    n / d * scale < n * m ∧ n * m ≤ (n / d + 1) * scale := by
  have split : d * (n / d) + n % d = n := Nat.div_add_mod n d
  have below : n % d < d := Nat.mod_lt n positive
  have product : d * (n * m) = n * scale + n * e := by
    calc d * (n * m) = n * (d * m) := by ring
      _ = n * scale + n * e := by rw [scaled, Nat.mul_add]
  have gain : 0 < n * e := Nat.mul_pos numerator error
  constructor
  · refine Nat.lt_of_mul_lt_mul_left (a := d) ?_
    calc d * (n / d * scale) = d * (n / d) * scale := by ring
      _ ≤ n * scale := Nat.mul_le_mul_right _ (by omega)
      _ < d * (n * m) := by omega
  · refine Nat.le_of_mul_le_mul_left ?_ positive
    have room : n + (d - n % d) = d * (n / d + 1) := by
      rw [Nat.mul_succ]
      omega
    calc d * (n * m) = n * scale + n * e := product
      _ ≤ n * scale + scale * (d - n % d) := by omega
      _ = (n + (d - n % d)) * scale := by ring
      _ = d * ((n / d + 1) * scale) := by
          rw [room]
          ring

/-- For a negated numerator, rounding down gives one less than the quotient. -/
theorem neg_mul_div_eq (scaled : d * m = scale + e) (positive : 0 < d)
    (numerator : 0 < n) (error : 0 < e) (scalePositive : 0 < scale)
    (small : n * e ≤ scale * (d - n % d)) :
    -(n : Int) * m / scale = -(n / d : Nat) - 1 := by
  obtain ⟨above, below⟩ := between_of_error scaled positive numerator error small
  have low : ((n / d : Nat) : Int) * scale < n * m := by exact_mod_cast above
  have high : (n : Int) * m ≤ ((n / d : Nat) + 1) * scale := by
    exact_mod_cast below
  have positiveScale : (0 : Int) < scale := by exact_mod_cast scalePositive
  refine le_antisymm (Int.lt_add_one_iff.mp
    (Int.ediv_lt_of_lt_mul positiveScale ?_))
    ((Int.le_ediv_iff_mul_le positiveScale).mpr ?_)
  · linarith
  · linarith

/--
An error that is small for the largest multiple of the divisor up to a bound
is small for all numerators up to it, except where the bound is the largest
numerator with its remainder.
-/
theorem small_of_multiple (positive : 0 < d) (inside : d ≤ bound) (scalePositive : 0 < scale)
    (small : e * (bound - bound % d) ≤ scale) (below : n ≤ bound)
    (apart : n = bound → ¬d ∣ bound + 1) :
    n * e < scale * (d - n % d) := by
  have split : d * (n / d) + n % d = n := Nat.div_add_mod n d
  have splitBound : d * (bound / d) + bound % d = bound := Nat.div_add_mod bound d
  have remainder : n % d < d := Nat.mod_lt n positive
  have multiple : bound - bound % d = d * (bound / d) := by omega
  rw [multiple] at small
  have order : n / d ≤ bound / d := Nat.div_le_div_right below
  have gap : scale ≤ scale * (d - n % d) := Nat.le_mul_of_pos_right _ (by omega)
  by_cases noError : e = 0
  · rw [noError, Nat.mul_zero]
    omega
  have errorPositive : 0 < e := Nat.pos_of_ne_zero noError
  by_cases inner : n / d < bound / d
  · have next : n < d * (bound / d) := by
      have step : d * (n / d + 1) ≤ d * (bound / d) := Nat.mul_le_mul_left d inner
      rw [Nat.mul_succ] at step
      omega
    calc n * e < d * (bound / d) * e := Nat.mul_lt_mul_of_pos_right next errorPositive
      _ = e * (d * (bound / d)) := Nat.mul_comm _ _
      _ ≤ scale := small
      _ ≤ scale * (d - n % d) := gap
  · have same : n / d = bound / d := by omega
    rw [same] at split
    have several : 1 ≤ bound / d := (Nat.one_le_div_iff positive).mpr inside
    have whole : d ≤ d * (bound / d) := Nat.le_mul_of_pos_right _ several
    have two : 2 ≤ d - n % d := by
      by_contra short
      have isLast : n = bound := by
        have least := Nat.mod_lt bound positive
        omega
      refine apart isLast ⟨bound / d + 1, ?_⟩
      rw [Nat.mul_succ]
      omega
    have rest : n % d * e < scale := by
      calc n % d * e < d * (bound / d) * e :=
            Nat.mul_lt_mul_of_pos_right (by omega) errorPositive
        _ = e * (d * (bound / d)) := Nat.mul_comm _ _
        _ ≤ scale := small
    calc n * e = e * (d * (bound / d)) + n % d * e := by
          conv_lhs => rw [← split]
          ring
      _ < scale + scale := by omega
      _ = scale * 2 := by ring
      _ ≤ scale * (d - n % d) := Nat.mul_le_mul_left _ two

/-- Rounding twice is rounding once. -/
theorem div_div (first second : Nat) : n / 2 ^ first / 2 ^ second = n / 2 ^ (first + second) := by
  rw [Nat.div_div_eq_div_mul, pow_add]

/-- A numerator below the scale's power has a small error. -/
theorem small_of_lt {width shift : Nat} (error : e < 2 ^ shift)
    (below : n ≤ 2 ^ width) (positive : 0 < d) :
    n * e < 2 ^ (shift + width) * (d - n % d) := by
  have remainder : n % d < d := Nat.mod_lt n positive
  have product : n * e < 2 ^ (shift + width) := by
    calc n * e ≤ 2 ^ width * e := Nat.mul_le_mul_right _ below
      _ < 2 ^ width * 2 ^ shift := Nat.mul_lt_mul_of_pos_left error (Nat.two_pow_pos _)
      _ = 2 ^ (shift + width) := by
          rw [← pow_add, Nat.add_comm]
  exact lt_of_lt_of_le product (Nat.le_mul_of_pos_right _ (by omega))

/--
A multiplier with one bit more than the word: the numerator is added to the
upper half of the product, and halved on the way so that the sum fits.
-/
theorem averaged {width shift : Nat} (word : m < 2 ^ width) :
    ((n - n * m / 2 ^ width) / 2 + n * m / 2 ^ width) / 2 ^ shift =
      n * (2 ^ width + m) / 2 ^ (width + 1 + shift) := by
  have below : n * m / 2 ^ width ≤ n := by
    refine Nat.div_le_of_le_mul ?_
    rw [Nat.mul_comm]
    exact Nat.mul_le_mul_right n word.le
  have sum : n * (2 ^ width + m) / 2 ^ width = n + n * m / 2 ^ width := by
    rw [Nat.mul_add, Nat.add_comm, Nat.add_mul_div_right _ _ (Nat.two_pow_pos _), Nat.add_comm]
  have half : (n - n * m / 2 ^ width) / 2 + n * m / 2 ^ width =
      (n + n * m / 2 ^ width) / 2 := by omega
  rw [half, ← sum, ← div_div, ← div_div, pow_one]

end OpenUH.Foundation.Reciprocal
