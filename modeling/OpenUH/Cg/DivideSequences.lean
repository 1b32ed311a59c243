import OpenUH.Cg.PseudoInverse
import OpenUH.Foundation.Words

/-!
# The sequences of a division by a constant

Each sequence of the 32-bit algorithms leaves the truncated quotient in its
result, for every numerator that its type has.
-/

namespace OpenUH.Cg

open Foundation

/-! ## Words -/

theorem shiftValue_aright {width amount : Nat} {value : Int}
    (positive : 0 < width) (low : -2 ^ (width - 1) ≤ value) (high : value < 2 ^ (width - 1)) :
    shiftValue .aright (BitVec.ofInt width value) amount =
      BitVec.ofInt width (value / 2 ^ amount) :=
  Words.sshiftRight_ofInt positive low high

theorem toNat_shiftValue_lright {width amount : Nat} {value : BitVec width} :
    (shiftValue .lright value amount).toNat = value.toNat / 2 ^ amount := by
  rw [shiftValue, BitVec.toNat_ushiftRight, Nat.shiftRight_eq_div_pow]

/-- The sign of a numerator, as the arithmetic shift by all other bits gives
it. -/
theorem ediv_sign {width : Nat} {n : Int} (low : -2 ^ width ≤ n)
    (high : n < 2 ^ width) : n / 2 ^ width = if n < 0 then -1 else 0 := by
  have power : (0 : Int) < 2 ^ width := by positivity
  split
  · refine le_antisymm (Int.lt_add_one_iff.mp
      (Int.ediv_lt_of_lt_mul power (by linarith)))
      ((Int.le_ediv_iff_mul_le power).mpr (by linarith))
  · exact Int.ediv_eq_zero_of_lt (by omega) high

/-- A truncated quotient is in the range of its type, the one of the smallest
number and minus one apart. -/
theorem tdiv_range {bound n d : Int} (low : -bound ≤ n) (high : n < bound)
    (apart : ¬(n = -bound ∧ d = -1)) :
    -bound ≤ n.tdiv d ∧ n.tdiv d < bound := by
  have size : (n.tdiv d).natAbs = n.natAbs / d.natAbs := Int.natAbs_tdiv n d
  have smaller : n.natAbs / d.natAbs ≤ n.natAbs := Nat.div_le_self _ _
  have least : -bound ≤ n.tdiv d := by omega
  refine ⟨least, ?_⟩
  by_contra large
  have whole : n.natAbs / d.natAbs = n.natAbs := by omega
  have isMinimum : n = -bound := by omega
  have one : d.natAbs = 1 := by
    rcases Nat.lt_or_ge 1 d.natAbs with several | few
    · exact absurd whole (Nat.ne_of_lt (Nat.div_lt_self (by omega) several))
    · rcases Nat.eq_zero_or_pos d.natAbs with none | positive
      · rw [none, Nat.div_zero] at whole
        omega
      · omega
  have isOne : d = 1 := by
    rcases Int.natAbs_eq d with positive | negative
    · omega
    · exact absurd ⟨isMinimum, by omega⟩ apart
  rw [isOne, Int.tdiv_one] at large
  omega

/-! ## Signed divisions -/

variable {multiplier : Multiplier}

/-- The product with a multiplier, shifted and corrected by the sign, is the
truncated quotient. -/
theorem Multiplier.Signed.quotient {d e : Nat}
    (exact : multiplier.Signed d e) (positive : 0 < d) {n : Int}
    (low : -2 ^ 31 ≤ n) (high : n < 2 ^ 31) :
    n * multiplier.m / 2 ^ 32 / 2 ^ multiplier.s - n / 2 ^ 31 = n.tdiv d := by
  have scale : ((2 ^ (32 + multiplier.s) : Nat) : Int) = 2 ^ 32 * 2 ^ multiplier.s := by
    rw [pow_add]
    push_cast
    rfl
  rw [Int.ediv_ediv_of_nonneg (by positivity), ← scale, ediv_sign low high]
  rcases Int.lt_or_le n 0 with negative | nonnegative
  · obtain ⟨x, rfl⟩ : ∃ x : Nat, n = -x := ⟨n.natAbs, by omega⟩
    rw [if_pos negative, Reciprocal.neg_mul_div_eq exact.scaled positive
      (by omega) exact.error (Nat.two_pow_pos _)
      (exact.negative x (by omega)), Int.neg_tdiv, Int.ofNat_tdiv]
    omega
  · obtain ⟨x, rfl⟩ := Int.eq_ofNat_of_zero_le nonnegative
    have natural := Reciprocal.mul_div_eq exact.scaled positive (exact.positive x (by omega))
    rw [if_neg (by omega), Int.sub_zero, ← Int.ofNat_tdiv, ← natural,
      Int.natCast_ediv, Nat.cast_mul]

theorem highProduct_range {m : Nat} (packed : m < 2 ^ 32) {n : Int}
    (low : -2 ^ 31 ≤ n) (high : n < 2 ^ 31) :
    -2 ^ 31 ≤ n * m / 2 ^ 32 ∧ n * m / 2 ^ 32 < 2 ^ 31 := by
  have small : (m : Int) < 2 ^ 32 := by exact_mod_cast packed
  have nonnegative : (0 : Int) ≤ m := Int.natCast_nonneg m
  constructor
  · rw [Int.le_ediv_iff_mul_le (by positivity)]
    nlinarith
  · rw [Int.ediv_lt_iff_lt_mul (by positivity)]
    nlinarith

/-- The words of a signed sequence. -/
theorem Multiplier.Signed.word {d e : Nat}
    (exact : multiplier.Signed d e) (positive : 0 < d) {n : Int}
    (low : -2 ^ 31 ≤ n) (high : n < 2 ^ 31) :
    shiftValue .aright (BitVec.ofInt 32 (n * multiplier.m / 2 ^ 32))
        multiplier.s -
      shiftValue .aright (BitVec.ofInt 32 n) 31 = BitVec.ofInt 32 (n.tdiv d) := by
  obtain ⟨least, most⟩ := highProduct_range exact.packed low high
  rw [shiftValue_aright (by omega) least most,
    shiftValue_aright (by omega) low high, ← Words.ofInt_sub,
    exact.quotient positive low high]

theorem neg_sub_eq {first second : BitVec 32} : -(first - second) = second - first := by
  rw [BitVec.neg_sub, BitVec.add_comm, ← BitVec.sub_eq_add_neg]

/-- A divisor with its sign. -/
theorem ofInt_tdiv_neg {n : Int} {d : Nat} {first second : BitVec 32}
    (word : first - second = BitVec.ofInt 32 (n.tdiv d)) :
    second - first = BitVec.ofInt 32 (n.tdiv (-d : Int)) := by
  rw [Int.tdiv_neg, BitVec.ofInt_neg, ← word, neg_sub_eq]

/-- The sign bit is the negated sign. -/
theorem shiftValue_lright_sign {x : BitVec 32} :
    shiftValue .lright x 31 = -shiftValue .aright x 31 := by
  have host := x.isLt
  unfold shiftValue
  dsimp only
  refine BitVec.eq_of_toNat_eq ?_
  cases sign : x.msb with
  | false =>
      have small := BitVec.msb_eq_false_iff_two_mul_lt.mp sign
      rw [BitVec.sshiftRight_eq_of_msb_false sign, BitVec.toNat_neg,
        BitVec.toNat_ushiftRight, Nat.shiftRight_eq_div_pow]
      omega
  | true =>
      have large := BitVec.msb_eq_true_iff_two_mul_ge.mp sign
      rw [BitVec.sshiftRight_eq_of_msb_true sign, BitVec.toNat_neg,
        BitVec.toNat_not, BitVec.toNat_ushiftRight, BitVec.toNat_ushiftRight,
        BitVec.toNat_not, Nat.shiftRight_eq_div_pow, Nat.shiftRight_eq_div_pow]
      omega

section Sequences

variable {settings : Settings} {result numer next : Nat} {machine : Machine}

/-- The quotient in the result, for the words of a signed division. -/
theorem toInt_quotient {n denom_val : Int} {d : Nat} {first second : BitVec 32}
    (low : -2 ^ 31 ≤ n) (high : n < 2 ^ 31) (large : 1 < d)
    (divisor : denom_val = d ∨ denom_val = -d)
    (word : first - second = BitVec.ofInt 32 (n.tdiv d)) :
    (if denom_val > 0 then first - second else second - first).toInt = n.tdiv denom_val := by
  obtain ⟨least, most⟩ := @tdiv_range (2 ^ 31) n denom_val low high (by omega)
  rcases divisor with rfl | rfl
  · rw [if_pos (by omega), word]
    exact BitVec.toInt_ofInt_eq_self (by omega) least most
  · rw [if_neg (by omega), ofInt_tdiv_neg word]
    exact BitVec.toInt_ofInt_eq_self (by omega) least most

/-- The upper part of a product of 64 bits. -/
theorem setWidth_product {n m : Int} :
    (shiftValue .lright (BitVec.ofInt 64 n * BitVec.ofInt 64 m) 32).setWidth 32 =
      BitVec.ofInt 32 (n * m / 2 ^ 32) := by
  rw [← BitVec.ofInt_mul]
  exact Words.setWidth_ushiftRight_ofInt (by omega)

theorem expandImmediate_64 {dest : Nat} {val : Int} :
    expandImmediate settings 64 dest val = .ldc 64 dest val :=
  if_pos rfl

theorem expandImmediate_32 {dest : Nat} {val : Int} (low : -2 ^ 31 ≤ val) (high : val < 2 ^ 32) :
    expandImmediate settings 32 dest val = .ldc 32 dest val := by
  unfold expandImmediate
  rw [if_neg (by decide), if_pos ⟨low, high⟩]

/-- The signed product of the 32-bit target. -/
theorem signedHighProduct_eq {m : Nat} {n : Int} (small : m < 2 ^ 31)
    (low : -2 ^ 31 ≤ n) (high : n < 2 ^ 31) :
    signedHighProduct (BitVec.ofInt 32 (m : Int)) (BitVec.ofInt 32 n) =
      BitVec.ofInt 32 (n * m / 2 ^ 32) := by
  have nonnegative : (0 : Int) ≤ m := Int.natCast_nonneg m
  have multiplierValue : (BitVec.ofInt 32 (m : Int)).toInt = m :=
    BitVec.toInt_ofInt_eq_self (by decide) (by omega) (by omega)
  have numeratorValue : (BitVec.ofInt 32 n).toInt = n :=
    BitVec.toInt_ofInt_eq_self (by decide) low high
  rw [signedHighProduct, multiplierValue, numeratorValue, Int.mul_comm]

/-- A shift by nothing is left out. -/
theorem shiftValue_aright_zero {width : Nat} {value : BitVec width} :
    shiftValue .aright value 0 = value :=
  BitVec.sshiftRight_zero

/-- The word of a signed sequence. -/
def Multiplier.signedWord (multiplier : Multiplier) (n denom_val : Int) : BitVec 32 :=
  let first := shiftValue .aright (BitVec.ofInt 32 (n * multiplier.m / 2 ^ 32)) multiplier.s
  let second := shiftValue .aright (BitVec.ofInt 32 n) 31
  if denom_val > 0 then first - second else second - first

section

variable {n denom_val : Int} (numerOld : numer < next) (holds : (machine.read 32 numer).toInt = n)

include holds

theorem read_numerator : machine.read 32 numer = BitVec.ofInt 32 n := by
  rw [← holds, BitVec.ofInt_toInt]

theorem signExtend_numerator : (BitVec.ofInt 32 n).signExtend 64 = BitVec.ofInt 64 n := by
  rw [← holds, BitVec.ofInt_toInt]
  rfl

include numerOld

/-- The sequence with one more addition: the multiplier is taken as a negative
number, and the numerator makes up for it. -/
theorem signedSequence_extra (resultOld : result < next) (extra : multiplier.a = true)
    (topBit : 2 ^ 31 ≤ multiplier.m) (packed : multiplier.m < 2 ^ 32) :
    ∃ after,
      machine.exec (signedSequence settings result numer next denom_val multiplier) = some after ∧
      after.read 32 result = multiplier.signedWord n denom_val := by
  have numerator := read_numerator holds
  have extended := signExtend_numerator holds
  have signed : Int.bmod multiplier.m (2 ^ 32) = multiplier.m - 2 ^ 32 := by
    rw [Int.bmod_eq_emod]
    split <;> omega
  have whole : n * (multiplier.m - 2 ^ 32) / 2 ^ 32 + n = n * multiplier.m / 2 ^ 32 := by
    rw [Int.mul_sub, Int.sub_eq_add_neg, ← Int.neg_mul, Int.add_mul_ediv_right _ _ (by decide)]
    omega
  unfold signedSequence Multiplier.signedWord
  rw [if_pos extra, signed]
  simp (disch := omega) only [expandImmediate_64, List.cons_append,
    List.nil_append, Machine.exec_cons, Machine.step, Option.bind_some]
  split
  all_goals
    simp (disch := omega) only [Machine.exec_cons, Machine.exec_nil, Machine.step, Option.bind_some]
    refine ⟨_, rfl, ?_⟩
    simp (disch := omega) only [Machine.read_setFlags,
      Machine.read_write_of_ne, Machine.read_write_self, Machine.read_write,
      numerator, extended, setWidth_product]
    rw [← BitVec.ofInt_add, whole]

/-- The sequence of the 32-bit target, with its product of two registers. -/
theorem signedSequence_target32 (noExtra : multiplier.a = false) (small : multiplier.m < 2 ^ 31)
    (target : settings.isTarget32bit = true) (nonzero : denom_val ≠ 0) :
    ∃ after,
      machine.exec (signedSequence settings result numer next denom_val multiplier) = some after ∧
      after.read 32 result = multiplier.signedWord n denom_val := by
  have numerator := read_numerator holds
  have high : signedHighProduct (BitVec.ofInt 32 (multiplier.m : Int))
      (BitVec.ofInt 32 n) = BitVec.ofInt 32 (n * multiplier.m / 2 ^ 32) :=
    signedHighProduct_eq small (holds ▸ BitVec.le_toInt _) (holds ▸ BitVec.toInt_lt)
  have immediate : expandImmediate settings 32 next multiplier.m =
      .ldc 32 next multiplier.m := expandImmediate_32 (by omega) (by omega)
  unfold signedSequence Multiplier.signedWord
  rw [if_neg (by rw [noExtra]; exact Bool.false_ne_true), if_pos target]
  by_cases shifted : multiplier.s = 0
  all_goals rcases lt_or_gt_of_ne nonzero with negative | positive
  all_goals
    simp (disch := omega) only [if_pos, if_neg, immediate, List.cons_append,
      List.nil_append, Machine.exec_cons, Machine.exec_nil, Machine.step,
      Option.bind_some]
    refine ⟨_, rfl, ?_⟩
    simp (disch := omega) only [Machine.read_setFlags,
      Machine.read_write_of_ne, Machine.read_write_self, numerator, high,
      shiftValue_lright_sign, ← BitVec.sub_eq_add_neg, neg_sub_eq]
  · rw [shifted, shiftValue_aright_zero]
  · rw [shifted, shiftValue_aright_zero]

/-- The sequence with a product of 64 bits. -/
theorem signedSequence_simple (noExtra : multiplier.a = false)
    (target : ¬settings.isTarget32bit = true) (nonzero : denom_val ≠ 0) :
    ∃ after,
      machine.exec (signedSequence settings result numer next denom_val multiplier) = some after ∧
      after.read 32 result = multiplier.signedWord n denom_val := by
  have numerator := read_numerator holds
  have extended := signExtend_numerator holds
  unfold signedSequence Multiplier.signedWord
  rw [if_neg (by rw [noExtra]; exact Bool.false_ne_true), if_neg target]
  by_cases shifted : multiplier.s = 0
  all_goals rcases lt_or_gt_of_ne nonzero with negative | positive
  all_goals
    simp (disch := omega) only [if_pos, if_neg, expandImmediate_64,
      List.cons_append, List.nil_append, Machine.exec_cons, Machine.exec_nil,
      Machine.step, Option.bind_some]
    refine ⟨_, rfl, ?_⟩
    simp (disch := omega) only [Machine.read_setFlags, Machine.read_write,
      Machine.read_write_of_ne, numerator, extended,
      BitVec.setWidth_eq, setWidth_product]
  · rw [shifted, shiftValue_aright_zero]
  · rw [shifted, shiftValue_aright_zero]

/-- The signed sequences leave the quotient. -/
theorem signedSequence_divides {d e : Nat} (resultOld : result < next)
    (exact : multiplier.Signed d e) (large : 1 < d) (divisor : denom_val = d ∨ denom_val = -d) :
    ∃ after,
      machine.exec (signedSequence settings result numer next denom_val multiplier) = some after ∧
      (after.read 32 result).toInt = n.tdiv denom_val := by
  have low : -2 ^ 31 ≤ n := holds ▸ BitVec.le_toInt _
  have high : n < 2 ^ 31 := holds ▸ BitVec.toInt_lt
  have quotient := toInt_quotient low high large divisor (exact.word (by omega) low high)
  have extra := exact.extra
  have nonzero : denom_val ≠ 0 := by omega
  cases isExtra : multiplier.a with
  | true =>
      obtain ⟨after, executed, word⟩ :=
        signedSequence_extra numerOld holds resultOld isExtra
          (of_decide_eq_true (extra.symm.trans isExtra)) exact.packed
      exact ⟨after, executed, word ▸ quotient⟩
  | false =>
      by_cases target : settings.isTarget32bit = true
      · obtain ⟨after, executed, word⟩ :=
          signedSequence_target32 numerOld holds isExtra
            (by have := of_decide_eq_false (extra.symm.trans isExtra); omega)
            target nonzero
        exact ⟨after, executed, word ▸ quotient⟩
      · obtain ⟨after, executed, word⟩ :=
          signedSequence_simple numerOld holds isExtra target nonzero
        exact ⟨after, executed, word ▸ quotient⟩

end

/-! ## Unsigned divisions -/

/-- An unsigned number stands in its own width and in the whole TN. -/
theorem toNat_read {width tn n : Nat} (wide : width ≤ 64)
    (holds : (machine.read 64 tn).toNat = n) (small : n < 2 ^ width) :
    (machine.read width tn).toNat = n := by
  rw [← Machine.setWidth_read wide, BitVec.toNat_setWidth, holds, Nat.mod_eq_of_lt small]

/-- The upper half of a product of two unsigned numbers of 32 bits. -/
theorem toNat_product {x : BitVec 64} {n m : Nat} (numerator : x.toNat = n)
    (small : n < 2 ^ 32) (packed : m < 2 ^ 32) :
    ((shiftValue .lright (x * BitVec.ofInt 64 (m : Int)) 32).setWidth
      32).toNat = n * m / 2 ^ 32 := by
  have product : n * m < 2 ^ 32 * 2 ^ 32 := Nat.mul_lt_mul_of_lt_of_lt small packed
  have multiplier : (BitVec.ofInt 64 (m : Int)).toNat = m := by
    rw [BitVec.ofInt_natCast, BitVec.toNat_ofNat, Nat.mod_eq_of_lt (by omega)]
  rw [BitVec.toNat_setWidth, toNat_shiftValue_lright, BitVec.toNat_mul, numerator, multiplier]
  omega

/-- The average of a numerator and a smaller number does not overflow. -/
theorem toNat_average {width amount n q : Nat} {x p : BitVec width}
    (numerator : x.toNat = n) (product : p.toNat = q) (below : q ≤ n) :
    (shiftValue .lright (shiftValue .lright (x - p) 1 + p) amount).toNat =
      ((n - q) / 2 + q) / 2 ^ amount := by
  have host := x.isLt
  rw [toNat_shiftValue_lright, BitVec.toNat_add, toNat_shiftValue_lright,
    BitVec.toNat_sub_of_le (by rw [BitVec.le_def]; omega), numerator, product,
    pow_one, Nat.mod_eq_of_lt (by omega)]

/-- The unsigned sequences leave the quotient. -/
theorem unsignedSequence_divides {d n : Nat}
    (numerOld : numer < next) (exact : multiplier.Unsigned d)
    (holds : (machine.read 64 numer).toNat = n) (small : n < 2 ^ 32) :
    ∃ after,
      machine.exec (unsignedSequence settings result numer next multiplier) = some after ∧
      (after.read 64 result).toNat = n / d := by
  unfold unsignedSequence
  cases isExtra : multiplier.a with
  | true =>
      obtain ⟨topBit, quotient⟩ := exact.extended isExtra
      have packed := exact.packed
      obtain ⟨m, doubled, odd⟩ : ∃ m < 2 ^ 32, 2 ^ 32 + m = 2 * multiplier.m + 1 :=
        ⟨2 * multiplier.m + 1 - 2 ^ 32, by omega, by omega⟩
      have pattern : uint32 (uint32 (2 * multiplier.m) + 1) = m := by
        unfold uint32
        omega
      have high := toNat_product holds small doubled
      have narrow := toNat_read (by omega) holds small
      have average := @Reciprocal.averaged n m 32 multiplier.s doubled
      rw [odd] at average
      simp (disch := omega) only [if_true, expandImmediate_64, pattern,
        Machine.exec_cons, Machine.exec_nil, Machine.step, Option.bind_some]
      refine ⟨_, rfl, ?_⟩
      simp (disch := omega) only [Machine.read_setFlags, Machine.read_write,
        Machine.read_write_of_ne, BitVec.setWidth_eq]
      rw [BitVec.toNat_setWidth_of_le (by omega),
        toNat_average narrow high (Nat.div_le_of_le_mul (by nlinarith))]
      exact average.trans (quotient n small)
  | false =>
      have quotient := exact.simple isExtra n small
      have high := toNat_product holds small exact.packed
      simp (disch := omega) only [Bool.false_eq_true, if_false, expandImmediate_64,
        Machine.exec_cons, Machine.exec_nil, Machine.step, Option.bind_some]
      refine ⟨_, rfl, ?_⟩
      simp (disch := omega) only [Machine.read_setFlags, Machine.read_write,
        Machine.read_write_of_ne, BitVec.setWidth_eq]
      rw [BitVec.toNat_setWidth_of_le (by omega), toNat_shiftValue_lright, high, Reciprocal.div_div]
      exact quotient

/-- The lower 32 bits of a host value. -/
theorem toNat_ofInt_bmod {denom_val : Int} {d : Nat} (same : uint32 (uint64 denom_val) = d) :
    (BitVec.ofInt 32 (Int.bmod denom_val (2 ^ 32))).toNat = d := by
  unfold uint32 uint64 at same
  rw [BitVec.toNat_ofInt, Int.bmod_emod]
  omega

/-- A divisor with the highest bit is contained once or not at all. -/
theorem compareSequence_divides {denom_val : Int} {d n : Nat}
    (numerOld : numer < next) (same : uint32 (uint64 denom_val) = d)
    (large : 2 ^ 31 ≤ d) (holds : (machine.read 64 numer).toNat = n) (small : n < 2 ^ 32) :
    ∃ after,
      machine.exec (compareSequence settings result numer next denom_val) = some after ∧
      (after.read 64 result).toNat = n / d := by
  have divisor := toNat_ofInt_bmod same
  have narrow := toNat_read (by omega) holds small
  have pattern : -2 ^ 31 ≤ Int.bmod denom_val (2 ^ 32) ∧ Int.bmod denom_val (2 ^ 32) < 2 ^ 32 := by
    have low := @Int.le_bmod denom_val (2 ^ 32) (by decide)
    have high := @Int.bmod_lt denom_val (2 ^ 32) (by decide)
    omega
  unfold compareSequence
  simp (disch := omega) only [expandImmediate_32,
    Machine.exec_cons, Machine.exec_nil, Machine.step, Option.bind_some,
    Machine.flags_write, Machine.flags_setFlags, Option.map_some]
  refine ⟨_, rfl, ?_⟩
  simp (disch := omega) only [Machine.read_setFlags, Machine.read_write,
    Machine.read_write_of_ne, BitVec.setWidth_eq]
  rw [BitVec.toNat_setWidth_of_le (by omega)]
  by_cases below : n < d
  · have carry : (cmpFlags (machine.read 32 numer)
        (BitVec.ofInt 32 (denom_val.bmod (2 ^ 32)))).carry = true := by
      rw [cmpFlags, BitVec.ult_eq_decide, decide_eq_true_eq, narrow, divisor]
      exact below
    rw [if_pos carry, Nat.div_eq_of_lt below]
    decide
  · have noCarry : ¬(cmpFlags (machine.read 32 numer)
        (BitVec.ofInt 32 (denom_val.bmod (2 ^ 32)))).carry = true := by
      rw [cmpFlags, BitVec.ult_eq_decide, decide_eq_true_eq, narrow, divisor]
      exact below
    have once : n / d = 1 := Nat.div_eq_of_lt_le (by omega) (by omega)
    rw [if_neg noCarry, once]
    decide

end Sequences

end OpenUH.Cg
