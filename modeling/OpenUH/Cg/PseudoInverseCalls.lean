import Mathlib.Algebra.Order.Floor.Div
import OpenUH.Cg.PseudoInverse
import Mathlib.GroupTheory.GroupAction.Ring

/-!
# Calls of the pseudo-inverse

`determine_pseudo_inverse` with its two assertions, and with a scan for the width of the
divisor that has to come to an end by itself.
-/

namespace OpenUH.Cg

open Foundation

/-! ## Checked calls -/

/-- The loop for the smallest `n` with `2^n ≥ b`; nothing if it does not stop in time. -/
def scanForWidth (b1 : Nat) : Nat → Nat → Nat → Option (Nat × Nat)
  | 0, _, _ => none
  | fuel + 1, n, m =>
      if m < b1 then scanForWidth b1 fuel (n + 1) (uint64 (2 * m) + 1) else some (n, m)

/--
One turn of the division with its assertions: a remainder that overflowed in the turn
before is below the divisor in its host word, and only a divisor with its upper bit set
leaves a remainder with its upper bit set.
-/
def checkedTurn (b : Nat) (state : PseudoState) : Option PseudoState :=
  let next := pseudoTurn b state
  if state.mOverflow ∧ ¬ state.m < b then none
  else if next.mOverflow ∧ ¬ 2 ^ 63 ≤ b then none
  else some next

def checkedTurns (b : Nat) : Nat → PseudoState → Option PseudoState
  | 0, state => some state
  | turns + 1, state => (checkedTurn b state).bind (checkedTurns b turns)

/-- `determine_pseudo_inverse` with its assertions. -/
def checkedPseudoInverse (fuel b maxbits_a : Nat) : Option (Nat × Nat) :=
  (scanForWidth (uint64 ((b : Int) - 1)) fuel 1 1).bind fun (n, m) =>
    (checkedTurns b (maxbits_a + 1) { q := 0, m := m, mOverflow := false }).map fun last =>
      (uint64 (1 + last.q), n)

/-! ## The scan -/

/-- Where the loop stops by itself, the loop with a counter finds the same. -/
theorem scanForWidth_eq {b1 : Nat} (fuel : Nat) :
    ∀ n m, ¬ (widthLoop b1 fuel n m).2 < b1 →
      scanForWidth b1 (fuel + 1) n m = some (widthLoop b1 fuel n m) := by
  induction fuel with
  | zero =>
      intro n m stopped
      exact if_neg stopped
  | succ fuel ih =>
      intro n m stopped
      rw [scanForWidth]
      unfold widthLoop at stopped ⊢
      by_cases short : m < b1
      · rw [if_pos short] at stopped
        rw [if_pos short, if_pos short]
        exact ih _ _ stopped
      · rw [if_neg short, if_neg short]

/-- The scan ends at the width of the divisor, after at most sixty-four turns. -/
theorem scanForWidth_spec {b fuel : Nat} (large : 2 < b) (host : b < 2 ^ 64) (enough : 64 < fuel) :
    ∃ n, scanForWidth (uint64 ((b : Int) - 1)) fuel 1 1 = some (n, 2 ^ n - 1) ∧
      1 ≤ n ∧ n ≤ 64 ∧ b ≤ 2 ^ n ∧ 2 ^ (n - 1) < b := by
  have pattern : uint64 ((b : Int) - 1) = b - 1 := @uint64_sub b 1 (by omega) host
  obtain ⟨extra, rfl⟩ : ∃ extra, fuel = extra + 1 := ⟨fuel - 1, by omega⟩
  obtain ⟨n, width, least, most, wide, narrow⟩ :=
    @widthLoop_spec (b - 1) (by omega) extra 1 le_rfl (by omega) (by omega) (.inl rfl)
  have start : (2 : Nat) ^ 1 - 1 = 1 := rfl
  rw [start] at width
  refine ⟨n, ?_, least, most, by omega, ?_⟩
  · rw [pattern, scanForWidth_eq extra 1 1 (by rw [width]; omega), width]
  · rcases narrow with rfl | narrow
    · omega
    · omega

/-! ## The assertions -/

/-- In a division neither assertion fails. -/
theorem checkedTurn_eq {b x : Nat} {state : PseudoState} (positive : 0 < b)
    (host : b < 2 ^ 64) (divides : state.Divides b x) :
    checkedTurn b state = some (pseudoTurn b state) := by
  have below := Nat.mod_lt (2 ^ x - 1) positive
  have belowNext := Nat.mod_lt (2 ^ (x + 1) - 1) positive
  have remainder := divides.remainder
  have remainderNext := (pseudoTurn_divides positive host divides).remainder
  unfold checkedTurn
  dsimp only
  rw [if_neg, if_neg]
  · rintro ⟨overflow, small⟩
    rw [if_pos overflow] at remainderNext
    omega
  · rintro ⟨overflow, small⟩
    rw [if_pos overflow] at remainder
    omega

theorem checkedTurns_eq {b x : Nat} {state : PseudoState} (positive : 0 < b)
    (host : b < 2 ^ 64) (divides : state.Divides b x) (turns : Nat) :
    checkedTurns b turns state = some ((pseudoTurn b)^[turns] state) := by
  induction turns generalizing x state with
  | zero => rfl
  | succ turns ih =>
      rw [checkedTurns, checkedTurn_eq positive host divides, Option.bind_some,
        ih (pseudoTurn_divides positive host divides)]
      rfl

/-- The state of the division before its first turn. -/
theorem divides_start {b n : Nat} (least : 1 ≤ n) (most : n ≤ 64) (above : 2 ^ (n - 1) < b) :
    ({ q := 0, m := 2 ^ n - 1, mOverflow := false } : PseudoState).Divides b (n - 1) := by
  have double : 2 ^ n = 2 * 2 ^ (n - 1) := by
    rw [← pow_succ']
    congr 1
    omega
  have host64 : 2 ^ n ≤ 2 ^ 64 := Nat.pow_le_pow_right (by omega) most
  have positive := Nat.two_pow_pos (n - 1)
  refine ⟨?_, by dsimp only; omega, ?_⟩
  · rw [Nat.div_eq_of_lt (by omega)]
    rfl
  · dsimp only
    rw [Nat.mod_eq_of_lt (by omega), if_neg Bool.false_ne_true]
    omega

/-! ## Results -/

/-- The scaled reciprocal is a quotient that is rounded up. -/
theorem pseudoReciprocal_eq_ceilDiv {b exponent : Nat} (positive : 0 < b) :
    pseudoReciprocal b exponent = 2 ^ exponent ⌈/⌉ b := by
  have power := Nat.two_pow_pos exponent
  rw [Nat.ceilDiv_eq_add_pred_div, pseudoReciprocal, Nat.add_comm 1, ← Nat.add_div_right _ positive]
  congr 1
  omega

/-- A width that is just large enough is the least one. -/
theorem width_least {b n k : Nat} (above : 2 ^ (n - 1) < b) (wide : b ≤ 2 ^ k) : n ≤ k := by
  by_contra less
  have narrower : 2 ^ k ≤ 2 ^ (n - 1) := Nat.pow_le_pow_right (by omega) (by omega)
  omega

/-- `determine_pseudo_inverse` comes to an end without a failed assertion, with the least
width of the divisor and the lower word of the rounded reciprocal. -/
theorem checkedPseudoInverse_spec {fuel b maxbits_a : Nat} (large : 2 < b)
    (host : b < 2 ^ 64) (enough : 64 < fuel) :
    ∃ n, (1 ≤ n ∧ b ≤ 2 ^ n ∧ 2 ^ (n - 1) < b) ∧
      checkedPseudoInverse fuel b maxbits_a = some (2 ^ (n + maxbits_a) ⌈/⌉ b % 2 ^ 64, n) := by
  obtain ⟨n, scanned, least, most, wide, above⟩ := scanForWidth_spec large host enough
  have first := divides_start least most above
  have last := pseudoTurns_divide (by omega) host first (maxbits_a + 1)
  have exponent : n - 1 + (maxbits_a + 1) = n + maxbits_a := by omega
  rw [exponent] at last
  refine ⟨n, ⟨least, wide, above⟩, ?_⟩
  unfold checkedPseudoInverse
  rw [scanned, Option.bind_some]
  dsimp only
  rw [checkedTurns_eq (by omega) host first, Option.map_some, last.quotient,
    ← pseudoReciprocal_eq_ceilDiv (by omega)]
  congr 2
  unfold uint64 pseudoReciprocal
  omega

/-- For the dividends of 31, 32, 63 and 64 bits and every divisor that is no power of two,
`determine_pseudo_inverse` returns the least width and the reciprocal scaled by it, without
a failed assertion and after a scan that ends. -/
theorem determinePseudoInverse_exact (maxbits_a b : Nat)
    (widths : maxbits_a = 31 ∨ maxbits_a = 32 ∨ maxbits_a = 63 ∨ maxbits_a = 64)
    (least : 2 ≤ b) (below : b < 2 ^ maxbits_a) (noPower : ∀ k, b ≠ 2 ^ k) :
    ∃ n, (1 ≤ n ∧ b ≤ 2 ^ n ∧ ∀ k, 1 ≤ k → b ≤ 2 ^ k → n ≤ k) ∧
      ∀ fuel > 64, checkedPseudoInverse fuel b maxbits_a =
        some (if maxbits_a = 64 then 2 ^ (n + maxbits_a) ⌈/⌉ b % 2 ^ 64
          else 2 ^ (n + maxbits_a) ⌈/⌉ b, n) := by
  have large : 2 < b := by
    have := noPower 1
    omega
  have most : maxbits_a ≤ 64 := by omega
  have host : b < 2 ^ 64 := lt_of_lt_of_le below (Nat.pow_le_pow_right (by omega) most)
  obtain ⟨n, ⟨positive, wide, above⟩, -⟩ :=
    @checkedPseudoInverse_spec 65 b maxbits_a large host (by omega)
  refine ⟨n, ⟨positive, wide, fun k _ enough => width_least above enough⟩, ?_⟩
  intro fuel enough
  obtain ⟨n', ⟨positive', wide', above'⟩, result⟩ :=
    @checkedPseudoInverse_spec fuel b maxbits_a large host enough
  have same : n' = n := le_antisymm (width_least above' wide) (width_least above wide')
  rw [result, same]
  split_ifs with isLast
  · rfl
  · have fits : n ≤ maxbits_a := width_least above below.le
    have short : 2 ^ (n + maxbits_a) ⌈/⌉ b < 2 ^ (maxbits_a + 1) := by
      rw [← pseudoReciprocal_eq_ceilDiv (by omega)]
      exact pseudoReciprocal_lt positive above fits
    have hostPower : 2 ^ (maxbits_a + 1) ≤ 2 ^ 64 := Nat.pow_le_pow_right (by omega) (by omega)
    rw [Nat.mod_eq_of_lt (by omega)]

theorem determinePseudoInverse_exact_seven :
    ∃ n, (1 ≤ n ∧ 7 ≤ 2 ^ n ∧ ∀ k, 1 ≤ k → 7 ≤ 2 ^ k → n ≤ k) ∧
      ∀ fuel > 64, checkedPseudoInverse fuel 7 32 =
        some (if 32 = 64 then 2 ^ (n + 32) ⌈/⌉ 7 % 2 ^ 64 else 2 ^ (n + 32) ⌈/⌉ 7, n) := by
  refine determinePseudoInverse_exact 32 7 (.inr (.inl rfl)) (by decide) (by decide) ?_
  intro k isPower
  rcases Nat.lt_or_ge k 3 with small | large
  · interval_cases k <;> cases isPower
  · have : 2 ^ 3 ≤ 2 ^ k := Nat.pow_le_pow_right (by omega) large
    omega

end OpenUH.Cg
