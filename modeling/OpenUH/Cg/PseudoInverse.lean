import OpenUH.Cg.Multipliers

/-!
# Pseudo-inverses

`determine_pseudo_inverse` divides `2^(n + maxbits_a) - 1` by the divisor, one
bit at a time, with a remainder that may need one bit more than a host word.
-/

namespace OpenUH.Cg

open Foundation

/-! ## The width of the divisor -/

theorem widthLoop_spec {b1 : Nat} (host : b1 < 2 ^ 64) (fuel : Nat) :
    ∀ n, 1 ≤ n → n ≤ 64 → 64 ≤ n + fuel → (n = 1 ∨ 2 ^ (n - 1) ≤ b1) →
      ∃ n', widthLoop b1 fuel n (2 ^ n - 1) = (n', 2 ^ n' - 1) ∧ 1 ≤ n' ∧
        n' ≤ 64 ∧ b1 < 2 ^ n' ∧ (n' = 1 ∨ 2 ^ (n' - 1) ≤ b1) := by
  induction fuel with
  | zero =>
      intro n least most enough narrow
      have isLast : n = 64 := by omega
      exact ⟨n, rfl, least, most, isLast ▸ host, narrow⟩
  | succ fuel ih =>
      intro n least most enough narrow
      have positive := Nat.two_pow_pos n
      rw [widthLoop]
      by_cases short : 2 ^ n - 1 < b1
      · have below : n < 64 := by
          refine (Nat.pow_lt_pow_iff_right (by omega : 1 < 2)).mp ?_
          omega
        have double : uint64 (2 * ((2 ^ n - 1 : Nat) : Int)) + 1 = 2 ^ (n + 1) - 1 := by
          have small : 2 ^ n ≤ 2 ^ 63 := Nat.pow_le_pow_right (by omega) (by omega)
          unfold uint64
          rw [pow_succ]
          omega
        rw [if_pos short, double]
        exact ih (n + 1) (by omega) (by omega) (by omega) (.inr (by rw [Nat.add_sub_cancel]; omega))
      · rw [if_neg short]
        exact ⟨n, rfl, least, most, by omega, narrow⟩

/-! ## The division -/

/-- The state of the division after all bits of `2^x - 1`. -/
structure PseudoState.Divides (state : PseudoState) (b x : Nat) : Prop where
  quotient : state.q = (2 ^ x - 1) / b % 2 ^ 64
  word : state.m < 2 ^ 64
  remainder : state.m + (if state.mOverflow then 2 ^ 64 else 0) = 2 * ((2 ^ x - 1) % b) + 1

/-- One more bit of a long division. -/
theorem long_division {b x : Nat} (positive : 0 < b) :
    if b ≤ 2 * ((2 ^ x - 1) % b) + 1 then
      (2 ^ (x + 1) - 1) / b = 2 * ((2 ^ x - 1) / b) + 1 ∧
        (2 ^ (x + 1) - 1) % b = 2 * ((2 ^ x - 1) % b) + 1 - b
    else
      (2 ^ (x + 1) - 1) / b = 2 * ((2 ^ x - 1) / b) ∧
        (2 ^ (x + 1) - 1) % b = 2 * ((2 ^ x - 1) % b) + 1 := by
  have split := Nat.div_add_mod (2 ^ x - 1) b
  have below := Nat.mod_lt (2 ^ x - 1) positive
  have double : 2 ^ (x + 1) - 1 = b * (2 * ((2 ^ x - 1) / b)) + (2 * ((2 ^ x - 1) % b) + 1) := by
    have positivePower := Nat.two_pow_pos x
    rw [Nat.mul_left_comm, pow_succ]
    omega
  rw [double]
  generalize (2 ^ x - 1) / b = quotient at *
  generalize (2 ^ x - 1) % b = rest at *
  split
  · have carried : b * (2 * quotient) + (2 * rest + 1) =
        b * (2 * quotient + 1) + (2 * rest + 1 - b) := by
      rw [Nat.mul_succ]
      omega
    rw [carried, Nat.mul_add_div positive, Nat.mul_add_mod,
      Nat.div_eq_of_lt (by omega), Nat.mod_eq_of_lt (by omega)]
    exact ⟨rfl, rfl⟩
  · rw [Nat.mul_add_div positive, Nat.mul_add_mod, Nat.div_eq_of_lt (by omega),
      Nat.mod_eq_of_lt (by omega)]
    exact ⟨rfl, rfl⟩

/-- The remainder is doubled, and its upper bit is kept aside. -/
theorem divides_of_rest {b x q m : Nat}
    (quotient : q = (2 ^ x - 1) / b % 2 ^ 64) (rest : m = (2 ^ x - 1) % b) (small : m < 2 ^ 64) :
    ({ q := q, m := uint64 (2 * (m : Int)) + 1, mOverflow := 2 ^ 63 ≤ m } :
      PseudoState).Divides b x := by
  have doubled : uint64 (2 * (m : Int)) = 2 * m % 2 ^ 64 := by
    unfold uint64
    omega
  refine ⟨quotient, by dsimp only; omega, ?_⟩
  dsimp only
  rw [doubled, ← rest]
  by_cases top : 2 ^ 63 ≤ m
  · rw [if_pos (decide_eq_true top)]
    omega
  · rw [if_neg (by rw [decide_eq_true_eq]; exact top)]
    omega

theorem pseudoTurn_divides {b x : Nat} {state : PseudoState}
    (positive : 0 < b) (host : b < 2 ^ 64) (divides : state.Divides b x) :
    (pseudoTurn b state).Divides b (x + 1) := by
  obtain ⟨quotient, word, remainder⟩ := divides
  have next := @long_division b x positive
  have below := Nat.mod_lt (2 ^ x - 1) positive
  have belowNext := Nat.mod_lt (2 ^ (x + 1) - 1) positive
  obtain ⟨q, m, mOverflow⟩ := state
  dsimp only at quotient word remainder
  have doubled : uint64 (2 * (q : Int)) = 2 * ((2 ^ x - 1) / b) % 2 ^ 64 := by
    rw [quotient]
    unfold uint64
    omega
  unfold pseudoTurn
  dsimp only
  rw [doubled]
  cases mOverflow with
  | true =>
      rw [if_pos rfl] at remainder
      rw [if_pos (by omega)] at next
      have taken : uint64 ((m : Int) - b) = (2 ^ (x + 1) - 1) % b := by
        rw [next.2]
        unfold uint64
        omega
      rw [if_pos rfl, taken]
      exact divides_of_rest (by rw [next.1]; omega) rfl (by omega)
  | false =>
      rw [if_neg Bool.false_ne_true] at remainder
      rw [if_neg Bool.false_ne_true]
      by_cases enough : m ≥ b
      · rw [if_pos (by omega)] at next
        rw [if_pos enough]
        exact divides_of_rest (by rw [next.1]; omega) (by rw [next.2]; omega) (by omega)
      · rw [if_neg (by omega)] at next
        rw [if_neg enough]
        exact divides_of_rest (by rw [next.1]) (by rw [next.2]; omega) word

theorem pseudoTurns_divide {b x : Nat} {state : PseudoState}
    (positive : 0 < b) (host : b < 2 ^ 64) (divides : state.Divides b x) (turns : Nat) :
    (Nat.iterate (pseudoTurn b) turns state).Divides b (x + turns) := by
  induction turns with
  | zero => exact divides
  | succ turns ih =>
      rw [Function.iterate_succ_apply']
      exact pseudoTurn_divides positive host ih

/-! ## The pseudo-inverse -/

/-- The scaled reciprocal before the bit above the host word is lost. -/
def pseudoReciprocal (b exponent : Nat) : Nat := 1 + (2 ^ exponent - 1) / b

theorem pseudoReciprocal_scaled {b exponent : Nat} (positive : 0 < b) :
    ∃ e < b, b * pseudoReciprocal b exponent = 2 ^ exponent + e := by
  have split := Nat.div_add_mod (2 ^ exponent - 1) b
  have below := Nat.mod_lt (2 ^ exponent - 1) positive
  have power := Nat.two_pow_pos exponent
  refine ⟨b - 1 - (2 ^ exponent - 1) % b, by omega, ?_⟩
  rw [pseudoReciprocal, Nat.mul_add, Nat.mul_one]
  omega

/-- `determine_pseudo_inverse` gives the width of the divisor and the lower
word of the scaled reciprocal. -/
theorem determinePseudoInverse_spec {b : Nat} (large : 2 < b)
    (host : b < 2 ^ 64) (maxbits_a : Nat) :
    ∃ n, determinePseudoInverse b maxbits_a =
        (pseudoReciprocal b (n + maxbits_a) % 2 ^ 64, n) ∧
      1 ≤ n ∧ n ≤ 64 ∧ b ≤ 2 ^ n ∧ 2 ^ (n - 1) < b := by
  have pattern : uint64 ((b : Int) - 1) = b - 1 := @uint64_sub b 1 (by omega) host
  obtain ⟨n, width, least, most, wide, narrow⟩ :=
    @widthLoop_spec (b - 1) (by omega) 64 1 le_rfl (by omega) (by omega) (.inl rfl)
  have above : 2 ^ (n - 1) < b := by
    rcases narrow with rfl | narrow
    · omega
    · omega
  have first : ({ q := 0, m := 2 ^ n - 1, mOverflow := false } :
      PseudoState).Divides b (n - 1) := by
    have double : 2 ^ n = 2 * 2 ^ (n - 1) := by
      rw [← pow_succ']
      congr 1
      omega
    have host64 : 2 ^ n ≤ 2 ^ 64 := Nat.pow_le_pow_right (by omega) most
    have positive := Nat.two_pow_pos (n - 1)
    refine ⟨?_, by dsimp only; omega, ?_⟩
    · rw [Nat.div_eq_of_lt (by omega)]
      rfl
    · dsimp only
      rw [Nat.mod_eq_of_lt (by omega), if_neg Bool.false_ne_true]
      omega
  have last := pseudoTurns_divide (by omega) host first (maxbits_a + 1)
  have exponent : n - 1 + (maxbits_a + 1) = n + maxbits_a := by omega
  rw [exponent] at last
  refine ⟨n, ?_, least, most, by omega, above⟩
  have start : (2 : Nat) ^ 1 - 1 = 1 := rfl
  rw [start] at width
  unfold determinePseudoInverse
  rw [pattern, width]
  dsimp only
  rw [last.quotient]
  congr 1
  unfold uint64 pseudoReciprocal
  omega

/-! ## Quotients -/

/-- The quotient of a numerator with as many bits as the pseudo-inverse was
made for. -/
theorem pseudo_quotient {a b n maxbits_a : Nat} (positive : 0 < b)
    (wide : b ≤ 2 ^ n) (small : a ≤ 2 ^ maxbits_a) :
    a * pseudoReciprocal b (n + maxbits_a) / 2 ^ (n + maxbits_a) = a / b := by
  obtain ⟨e, error, scaled⟩ := @pseudoReciprocal_scaled b (n + maxbits_a) positive
  exact Reciprocal.mul_div_eq scaled positive (Reciprocal.small_of_lt (by omega) small positive)

/-- A pseudo-inverse has one bit more than the numerators. -/
theorem pseudoReciprocal_lt {b n maxbits_a : Nat} (least : 1 ≤ n)
    (narrow : 2 ^ (n - 1) < b) (fits : n ≤ maxbits_a) :
    pseudoReciprocal b (n + maxbits_a) < 2 ^ (maxbits_a + 1) := by
  obtain ⟨e, error, scaled⟩ := @pseudoReciprocal_scaled b (n + maxbits_a) (Nat.zero_lt_of_lt narrow)
  by_contra large
  obtain ⟨k, rfl⟩ : ∃ k, n = k + 1 := ⟨n - 1, by omega⟩
  rw [Nat.add_sub_cancel] at narrow
  have product : b * 2 ^ (maxbits_a + 1) ≤ b * pseudoReciprocal b (k + 1 + maxbits_a) :=
    Nat.mul_le_mul_left b (Nat.not_lt.mp large)
  have scale : 2 ^ (k + 1 + maxbits_a) = 2 ^ k * 2 ^ (maxbits_a + 1) := by
    rw [← pow_add]
    congr 1
    omega
  obtain ⟨rest, rfl⟩ : ∃ rest, b = 2 ^ k + 1 + rest := ⟨b - 2 ^ k - 1, by omega⟩
  have power : 2 ^ k < 2 ^ (maxbits_a + 1) := Nat.pow_lt_pow_right (by omega) (by omega)
  rw [scaled, scale] at product
  have rests : rest ≤ rest * 2 ^ (maxbits_a + 1) := Nat.le_mul_of_pos_right _ (Nat.two_pow_pos _)
  rw [Nat.add_mul, Nat.add_mul, Nat.one_mul] at product
  omega

theorem le_pseudoReciprocal {b n maxbits_a : Nat} (positive : 0 < b) (wide : b ≤ 2 ^ n) :
    2 ^ maxbits_a ≤ pseudoReciprocal b (n + maxbits_a) := by
  obtain ⟨e, -, scaled⟩ := @pseudoReciprocal_scaled b (n + maxbits_a) positive
  refine Nat.le_of_mul_le_mul_left ?_ positive
  calc b * 2 ^ maxbits_a ≤ 2 ^ n * 2 ^ maxbits_a := Nat.mul_le_mul_right _ wide
    _ = 2 ^ (n + maxbits_a) := (pow_add _ _ _).symm
    _ ≤ b * pseudoReciprocal b (n + maxbits_a) := by omega

end OpenUH.Cg
