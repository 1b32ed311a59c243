import Mathlib.Data.Nat.GCD.Basic
import Mathlib.Data.Nat.Prime.Basic
import OpenUH.Lno.Fractions

/-!
# Exactness of fractions

A sequence of operations on fractions runs beside the exact rational values.
The flag stays clear only over exact results in normal form, but for divisions
by zero of a fraction with the numerator 0, 1 or -1, and for some fractions
with the smallest integer.
-/

namespace OpenUH.Lno.Fractions

open Lno.SystemOfEquations

/-- The smallest `INT32`. -/
def int32Min : Int := -2 ^ 31

/-- The fraction is in normal form, of the sizes allowed, and has the value. -/
structure Represents (f : Frac) (q : ℚ) : Prop where
  positive : 0 < f.d
  coprime : Int.gcd f.n f.d = 1
  numerator : |f.n| ≤ fracMax
  denominator : f.d ≤ fracMax
  value : (f.n : ℚ) / f.d = q

/-- A checked result is exact, or the flag is set. -/
def ExactOrFlagged (result : Frac × Bool) (exact : Option ℚ) : Prop :=
  result.2 = true ∨ ∃ q, exact = some q ∧ Represents result.1 q

/-- The exact quotient. -/
def exactQuotient (left right : ℚ) : Option ℚ :=
  if right = 0 then none else some (left / right)

variable {n d : Int} {f : Frac} {q : ℚ}

/-! ## Sizes -/

variable {x : Int}

theorem szOk_iff : szOk x = true ↔ |x| ≤ fracMax := by
  rw [szOk, Bool.and_eq_true, decide_eq_true_iff, decide_eq_true_iff, abs_le, and_comm]

theorem szOk_of_fits (fits : Fits32 x) : szOk x = true ↔ x ≠ int32Min := by
  have low := fits.low
  have high := fits.high
  rw [szOk_iff, abs_le, fracMax, int32Max, int32Min]
  omega

theorem int32_neg (fits : Fits32 x) :
    int32 (-x) = if x = int32Min then int32Min else -x := by
  split
  · rename_i least
    rw [least]
    decide
  · rename_i more
    have low := fits.low
    have high := fits.high
    rw [int32Min] at more
    exact Fits32.int32_eq ⟨by omega, by omega⟩

theorem checksz_of_ok {exception : Bool} (ok : szOk x = true) :
    checksz x exception = (x, exception) := by
  rw [checksz, if_pos ok]

theorem checksz_flag {exception : Bool} (large : szOk x = false) :
    (checksz x exception).2 = true := by
  rw [checksz, if_neg (by simp [large])]

theorem one_le_fracMax : (1 : Int) ≤ fracMax := by decide

theorem szOk_zero : szOk 0 = true := rfl

theorem szOk_int32Min : szOk int32Min = false := rfl

/-! ## The flag stays set -/

theorem checksz_true : (checksz x true).2 = true := by
  rw [checksz]
  split <;> rfl

theorem checkszPair_true : (checkszPair n d true).2 = true := by
  rw [checkszPair]
  split <;> rfl

theorem ofPair_true : (ofPair n d true).2 = true := by
  simp only [ofPair, reduce, reduce2]
  split
  · exact checksz_true
  · split
    · rfl
    · split
      · exact checksz_true
      · split
        · exact checksz_true
        · exact checkszPair_true

theorem ofIty_true : (ofIty n d true).2 = true := by
  simp only [ofIty]
  rw [checksz_true, checksz_true]
  exact ofPair_true

/-! ## Greatest common divisors with the smallest integer -/

theorem gcdLoop_natAbs {fuel : Nat} {i j : Int} (nonzero : i ≠ 0) (enough : i.natAbs ≤ fuel) :
    (gcdLoop fuel i j).natAbs = Int.gcd i j := by
  induction fuel generalizing i j with
  | zero => omega
  | succ fuel ih =>
      have remainder : Int.gcd (j.tmod i) i = Int.gcd i j := by
        rw [Int.gcd, Int.natAbs_tmod, ← Nat.gcd_rec]
        rfl
      rw [gcdLoop]
      split
      · rename_i divides
        rw [← remainder, divides, Int.gcd_zero_left]
      · rename_i remains
        have less : (j.tmod i).natAbs < i.natAbs := by
          rw [Int.natAbs_tmod]
          exact Nat.mod_lt _ (Int.natAbs_pos.2 nonzero)
        rw [ih remains (by omega), remainder]

theorem natAbs_abs32 (fits : Fits32 x) : (abs32 x).natAbs = x.natAbs := by
  by_cases least : x = int32Min
  · rw [least]
    decide
  · rw [abs32_eq fits least, Int.natAbs_abs]

theorem gcd_natAbs (fits : Fits32 n) (fits' : Fits32 d) :
    (SystemOfEquations.gcd n d).natAbs = Int.gcd n d := by
  have left := natAbs_abs32 fits
  have right := natAbs_abs32 fits'
  rw [Int.gcd, ← left, ← right]
  simp only [SystemOfEquations.gcd]
  split
  · rename_i zero
    rw [zero, Int.natAbs_zero, Nat.gcd_zero_left]
  · split
    · rename_i zero
      rw [zero, Int.natAbs_zero, Nat.gcd_zero_right]
    · split
      · rw [gcdLoop_natAbs ‹_› (Nat.le_refl _), Int.gcd_comm]
        rfl
      · rw [gcdLoop_natAbs ‹_› (Nat.le_refl _)]
        rfl

theorem gcd_int32Min (x : Int) : Int.gcd int32Min x = 1 ↔ Odd x := by
  rw [Int.gcd, show int32Min.natAbs = 2 ^ 31 by decide, ← Int.natAbs_odd,
    ← Nat.coprime_iff_gcd_eq_one, Nat.coprime_pow_left_iff (by omega),
    Nat.coprime_two_left]

/-! ## Reduced fractions -/

/-- Dividing by the greatest common divisor gives the normal form. -/
theorem represents_divided (positive : 0 < d) (small : |n| ≤ fracMax * Int.gcd n d)
    (small' : d ≤ fracMax * Int.gcd n d) :
    Represents ⟨n / Int.gcd n d, d / Int.gcd n d⟩ (n / d) := by
  have divisor : (0 : Int) < Int.gcd n d := by
    exact_mod_cast Int.gcd_pos_of_ne_zero_right n positive.ne'
  obtain ⟨numerator, left⟩ := Int.gcd_dvd_left n d
  obtain ⟨denominator, right⟩ := Int.gcd_dvd_right n d
  have numeratorEq : n / Int.gcd n d = numerator := Int.ediv_eq_of_eq_mul_right divisor.ne' left
  have denominatorEq : d / Int.gcd n d = denominator :=
    Int.ediv_eq_of_eq_mul_right divisor.ne' right
  have coprime := Int.gcd_div_gcd_div_gcd (i := n) (j := d) (by exact_mod_cast divisor)
  rw [numeratorEq, denominatorEq] at *
  generalize (Int.gcd n d : Int) = g at *
  subst left
  subst right
  have denominatorPos : 0 < denominator := pos_of_mul_pos_right positive divisor.le
  refine ⟨denominatorPos, coprime, ?_, ?_, ?_⟩
  · rw [abs_mul, abs_of_pos divisor, mul_comm] at small
    exact le_of_mul_le_mul_right small divisor
  · rw [mul_comm] at small'
    exact le_of_mul_le_mul_right small' divisor
  · push_cast
    have : (g : ℚ) ≠ 0 := by exact_mod_cast divisor.ne'
    rw [mul_div_mul_left _ _ this]

/-! ## Construction from two components -/

/--
The two components that `FRAC(n, d)` turns into an exact fraction or flags.
A zero denominator is seen only where the numerator is not 0, 1 or -1; with the
smallest integer the sign of the divisor that `Gcd` finds comes in.
-/
structure Handled (n d : Int) : Prop where
  zero : d = 0 → 2 ≤ |n|
  numerator : n = int32Min → 1 < d → Odd d ∨ 0 < SystemOfEquations.gcd n d
  negative : n = int32Min → d < -1 → d ≠ int32Min → Odd d
  denominator : d = int32Min → 2 ≤ |n| → n ≠ int32Min → Odd n

/-- Components other than the smallest integer are handled. -/
theorem handled_of_small (left : szOk n = true) (right : szOk d = true)
    (nonzero : d = 0 → 2 ≤ |n|) : Handled n d := by
  have leftMore : n ≠ int32Min := by
    rintro rfl
    exact absurd left (by decide)
  have rightMore : d ≠ int32Min := by
    rintro rfl
    exact absurd right (by decide)
  exact ⟨nonzero, fun least => absurd least leftMore,
    fun least => absurd least leftMore, fun least => absurd least rightMore⟩

/-- A denominator of one. -/
theorem reduce_one (fits : Fits32 n) :
    ExactOrFlagged (reduce ⟨n, 1⟩ false) (exactQuotient n (1 : Int)) := by
  rw [reduce, if_pos rfl]
  by_cases least : n = int32Min
  · exact Or.inl (checksz_flag (by rw [least]; decide))
  · have ok := (szOk_of_fits fits).2 least
    rw [checksz_of_ok ok]
    refine Or.inr ⟨n, by simp [exactQuotient], Int.one_pos, ?_, szOk_iff.1 ok,
      one_le_fracMax, by simp⟩
    exact Int.gcd_one_right n

/-- A numerator of zero. -/
theorem reduce_zero (apart : d ≠ 1) :
    ExactOrFlagged (reduce ⟨0, d⟩ false) (exactQuotient (0 : Int) d) ↔ d ≠ 0 := by
  rw [reduce, if_neg apart, if_pos rfl]
  constructor
  · rintro (flagged | ⟨q, exact', _⟩) zero
    · cases flagged
    · simp [exactQuotient, zero] at exact'
  · intro nonzero
    refine Or.inr ⟨0, ?_, Int.one_pos, Int.gcd_one_right 0, ?_, one_le_fracMax, by simp⟩
    · simp [exactQuotient, nonzero]
    · exact szOk_iff.1 szOk_zero

/-- A numerator of one or minus one. -/
theorem reduce_unit (unit : n = 1 ∨ n = -1) (fits : Fits32 d) (apart : d ≠ 1) :
    ExactOrFlagged (reduce ⟨n, d⟩ false) (exactQuotient n d) ↔ d ≠ 0 := by
  have nonzero : n ≠ 0 := by omega
  rw [reduce, if_neg apart, if_neg nonzero, if_pos unit]
  dsimp only
  rw [int32_neg fits]
  constructor
  · rintro flagged rfl
    rcases flagged with flagged | ⟨q, exact', _⟩
    · cases flagged
    · simp [exactQuotient] at exact'
  · intro denominator
    by_cases least : d = int32Min
    · have negative : d < 0 := by
        rw [least]
        decide
      simp only [if_pos least, if_pos negative]
      exact Or.inl (checksz_flag szOk_int32Min)
    · have size := szOk_iff.1 ((szOk_of_fits fits).2 least)
      rw [if_neg least]
      have ok : szOk (if d < 0 then -d else d) = true := by
        rw [szOk_iff]
        split
        · rwa [abs_neg]
        · exact size
      rw [checksz_of_ok ok]
      refine Or.inr ⟨n / d, by simp [exactQuotient, denominator], ?_, ?_, ?_,
        (abs_le.1 (szOk_iff.1 ok)).2, ?_⟩
      · show 0 < if d < 0 then -d else d
        split <;> omega
      · rcases unit with rfl | rfl <;> show Int.gcd (if d < 0 then _ else _) _ = 1 <;>
          split <;> simp
      · rcases unit with rfl | rfl <;> show |if d < 0 then _ else _| ≤ fracMax <;>
          split <;> decide
      · show ((if d < 0 then -n else n : Int) : ℚ) / ((if d < 0 then -d else d : Int) : ℚ) = n / d
        split
        · push_cast
          exact neg_div_neg_eq _ _
        · rfl

/-- A denominator of minus one. -/
theorem reduce_negOne (fits : Fits32 n) (large : 2 ≤ |n|) :
    ExactOrFlagged (reduce ⟨n, -1⟩ false) (exactQuotient n (-1 : Int)) := by
  have nonzero : n ≠ 0 := by
    rintro rfl
    exact absurd large (by decide)
  have unit : ¬ (n = 1 ∨ n = -1) := by
    rintro (rfl | rfl) <;> exact absurd large (by decide)
  have apart : ¬ (-1 : Int) = 1 := by decide
  rw [reduce, if_neg apart, if_neg nonzero, if_neg unit, if_pos rfl]
  dsimp only
  rw [int32_neg fits]
  by_cases least : n = int32Min
  · rw [if_pos least]
    exact Or.inl (checksz_flag szOk_int32Min)
  · have size := szOk_iff.1 ((szOk_of_fits fits).2 least)
    rw [if_neg least, checksz_of_ok (szOk_iff.2 (by rwa [abs_neg]))]
    refine Or.inr ⟨-n, ?_, Int.one_pos, Int.gcd_one_right _,
      by rwa [abs_neg], one_le_fracMax, by simp⟩
    simp [exactQuotient, div_neg]

/-! ## The general reduction -/

/-- What `_reduce2` does to components that are not zero. -/
theorem reduce2_eq (nonzero : d ≠ 0) {i1 i2 : Int} (left : i1 = if n < 0 then int32 (-n) else n)
    (right : i2 = if d < 0 then int32 (-d) else d) :
    reduce2 ⟨n, d⟩ false =
      checkszPair
        (if (if n < 0 then decide (0 < d) else decide (d < 0)) then
          int32 ((int32 (-i1)).tdiv (SystemOfEquations.gcd i1 i2))
        else
          int32 (i1.tdiv (SystemOfEquations.gcd i1 i2)))
        (int32 (i2.tdiv (SystemOfEquations.gcd i1 i2))) false := by
  subst left
  subst right
  simp only [reduce2, if_neg nonzero, Bool.false_or, beq_eq_false_iff_ne.2 nonzero]

theorem checkszPair_of_ok (left : szOk n = true) (right : szOk d = true) :
    checkszPair n d false = (⟨n, d⟩, false) := by
  rw [checkszPair, left, right]
  rfl

theorem checkszPair_flag (large : szOk n = false ∨ szOk d = false) :
    (checkszPair n d false).2 = true := by
  rcases large with left | right
  · rw [checkszPair, left]
    rfl
  · rw [checkszPair, right, Bool.and_false]
    rfl

/-- A quotient of a component by a divisor of it is exact. -/
theorem int32_tdiv {x g : Int} (fits : Fits32 x) (more : x ≠ int32Min)
    (divides : g ∣ x) : int32 (x.tdiv g) = x / g := by
  have low := fits.low
  have high := fits.high
  rw [int32Min] at more
  have bound : |x / g| ≤ |x| := by
    rw [Int.abs_eq_natAbs, Int.abs_eq_natAbs, Int.ofNat_le, Int.natAbs_ediv_of_dvd divides]
    exact Nat.div_le_self _ _
  have size : |x| ≤ 2 ^ 31 - 1 := abs_le.2 ⟨by omega, by omega⟩
  have both := abs_le.1 (bound.trans size)
  rw [Int.tdiv_eq_ediv_of_dvd divides]
  exact Fits32.int32_eq ⟨by omega, by omega⟩

/-- Components other than the smallest integer are reduced exactly. -/
theorem reduce2_small (fits : Fits32 n) (fits' : Fits32 d) (nonzero : d ≠ 0)
    (more : n ≠ int32Min) (more' : d ≠ int32Min) :
    ExactOrFlagged (reduce2 ⟨n, d⟩ false) (exactQuotient n d) := by
  have size := szOk_iff.1 ((szOk_of_fits fits).2 more)
  have size' := szOk_iff.1 ((szOk_of_fits fits').2 more')
  have absolute : ∀ {x : Int}, Fits32 x → x ≠ int32Min →
      (|x| = if x < 0 then int32 (-x) else x) := by
    intro x fits more
    rw [int32_neg fits, if_neg more]
    split
    · exact abs_of_neg ‹_›
    · exact abs_of_nonneg (not_lt.1 ‹_›)
  have divisor : SystemOfEquations.gcd |n| |d| = (Int.gcd n d : Int) := by
    rw [gcd_eq (abs_nonneg n) size (abs_nonneg d) size', Int.gcd, Int.gcd,
      Int.natAbs_abs, Int.natAbs_abs]
  have signed : ∀ {x : Int}, Fits32 x → x ≠ int32Min → Fits32 (-x) ∧ -x ≠ int32Min := by
    intro x fits more
    have low := fits.low
    have high := fits.high
    rw [int32Min] at *
    exact ⟨⟨by omega, by omega⟩, by omega⟩
  have left := Int.gcd_dvd_left n d
  have right := Int.gcd_dvd_right n d
  have numerator :
      (if (if n < 0 then decide (0 < d) else decide (d < 0)) then
          int32 ((int32 (-|n|)).tdiv (Int.gcd n d))
        else int32 (|n|.tdiv (Int.gcd n d))) =
      (if d < 0 then -n else n) / Int.gcd n d := by
    have straight := int32_tdiv fits more left
    have turned := int32_tdiv (signed fits more).1 (signed fits more).2 ((dvd_neg).2 left)
    have sames : int32 n = n ∧ int32 (-n) = -n := ⟨fits.int32_eq, (signed fits more).1.int32_eq⟩
    rcases lt_or_ge n 0 with below | above <;>
      rcases lt_or_ge d 0 with below' | above'
    · rw [if_pos below, if_neg (by simpa using below'.le), if_pos below', abs_of_neg below, turned]
    · rw [if_pos below, if_pos (by simpa using above'.lt_of_ne' nonzero),
        if_neg (not_lt.2 above'), abs_of_neg below, neg_neg, sames.1, straight]
    · rw [if_neg (not_lt.2 above), if_pos (by simpa using below'),
        if_pos below', abs_of_nonneg above, sames.2, turned]
    · rw [if_neg (not_lt.2 above), if_neg (by simpa using above'),
        if_neg (not_lt.2 above'), abs_of_nonneg above, straight]
  have denominator : int32 (|d|.tdiv (Int.gcd n d)) = |d| / Int.gcd n d := by
    rcases lt_or_ge d 0 with below | above
    · rw [abs_of_neg below]
      exact int32_tdiv (signed fits' more').1 (signed fits' more').2 ((dvd_neg).2 right)
    · rw [abs_of_nonneg above]
      exact int32_tdiv fits' more' right
  have turned : Int.gcd (if d < 0 then -n else n) |d| = Int.gcd n d := by
    rw [Int.gcd, Int.natAbs_abs]
    split
    · rw [Int.natAbs_neg]
      rfl
    · rfl
  have divisorPos : 1 ≤ (Int.gcd n d : Int) := by
    exact_mod_cast Int.gcd_pos_of_ne_zero_right n nonzero
  have widened : ∀ {x : Int}, x ≤ fracMax → x ≤ fracMax * Int.gcd n d :=
    fun small => small.trans (le_mul_of_one_le_right (by decide) divisorPos)
  have result := represents_divided (n := if d < 0 then -n else n) (d := |d|)
    (abs_pos.2 nonzero)
    (by
      rw [turned]
      refine widened ?_
      split
      · rwa [abs_neg]
      · exact size)
    (by
      rw [turned]
      exact widened size')
  rw [turned] at result
  rw [reduce2_eq nonzero (absolute fits more) (absolute fits' more'), divisor,
    numerator, denominator,
    checkszPair_of_ok (szOk_iff.2 result.numerator) (szOk_iff.2 (abs_le.2 ⟨by
        have := result.positive
        have := one_le_fracMax
        dsimp only at *
        omega, result.denominator⟩))]
  refine Or.inr ⟨_, ?_, result⟩
  rw [exactQuotient, if_neg (by exact_mod_cast nonzero)]
  congr 1
  rcases lt_or_ge d 0 with below | above
  · rw [if_pos below, abs_of_neg below]
    push_cast
    rw [neg_div_neg_eq]
  · rw [if_neg (by omega), abs_of_nonneg above]

/-! ## Reductions with the smallest integer -/

theorem fits_int32Min : Fits32 int32Min := ⟨by decide, by decide⟩

theorem int32_neg_int32Min : int32 (-int32Min) = int32Min := by decide

theorem abs32_abs (fits : Fits32 x) (more : x ≠ int32Min) : abs32 |x| = abs32 x := by
  have low := fits.low
  have high := fits.high
  rw [int32Min] at more
  have bounds : |x| ≤ 2 ^ 31 - 1 := abs_le.2 ⟨by omega, by omega⟩
  have nonneg := abs_nonneg x
  rw [abs32_eq ⟨by omega, by omega⟩ (by omega), abs32_eq fits more, abs_abs]

/-- The smallest integer loses its sign only to a divisor of one. -/
theorem int32_tdiv_unit {g : Int} (unit : g.natAbs = 1) : int32 (int32Min.tdiv g) = int32Min := by
  rcases Int.natAbs_eq g with positive | negative
  · rw [positive, unit]
    decide
  · rw [negative, unit]
    decide

/-- A larger divisor gives quotients that are not too large. -/
theorem small_quotient {x g a : Int} (product : x = g * a)
    (size : |x| ≤ 2 ^ 31) (large : 2 ≤ g.natAbs) :
    int32 a = a ∧ szOk a = true := by
  have both : |g| * |a| ≤ 2 ^ 31 := by rwa [← abs_mul, ← product]
  have wide : (2 : Int) ≤ |g| := by
    rw [Int.abs_eq_natAbs]
    exact_mod_cast large
  have half : |a| ≤ 2 ^ 30 := by
    have nonneg := abs_nonneg a
    nlinarith
  have bounds := abs_le.1 half
  exact ⟨Fits32.int32_eq ⟨by omega, by omega⟩, szOk_iff.2 (half.trans (by decide))⟩

/-- The parts of a pair over a divisor that is not a unit. -/
theorem exists_quotients {g : Int} (divisor : g.natAbs = Int.gcd n d)
    (size : |n| ≤ 2 ^ 31) (size' : |d| ≤ 2 ^ 31) (large : 2 ≤ g.natAbs) :
    ∃ a b, n = g * a ∧ d = g * b ∧ int32 (n.tdiv g) = a ∧
      int32 (d.tdiv g) = b ∧ checkszPair a b false = (⟨a, b⟩, false) := by
  have nonzero : g ≠ 0 := by
    rintro rfl
    exact absurd large (by decide)
  obtain ⟨a, left⟩ : g ∣ n := by
    rw [← Int.natAbs_dvd, divisor]
    exact Int.gcd_dvd_left n d
  obtain ⟨b, right⟩ : g ∣ d := by
    rw [← Int.natAbs_dvd, divisor]
    exact Int.gcd_dvd_right n d
  obtain ⟨leftEq, leftOk⟩ := small_quotient left size large
  obtain ⟨rightEq, rightOk⟩ := small_quotient right size' large
  refine ⟨a, b, left, right, ?_, ?_, checkszPair_of_ok leftOk rightOk⟩
  · rw [left, Int.mul_tdiv_cancel_left _ nonzero, leftEq]
  · rw [right, Int.mul_tdiv_cancel_left _ nonzero, rightEq]

/-- The smallest integer over another denominator. -/
theorem reduce2_numerator (fits : Fits32 d) (large : 2 ≤ |d|) (more : d ≠ int32Min) :
    ExactOrFlagged (reduce2 ⟨int32Min, d⟩ false) (exactQuotient int32Min d) ↔
      Handled int32Min d := by
  have nonzero : d ≠ 0 := by
    rintro rfl
    exact absurd large (by decide)
  have handled : Handled int32Min d ↔
      (1 < d → Odd d ∨ 0 < SystemOfEquations.gcd int32Min d) ∧ (d < -1 → Odd d) := by
    constructor
    · intro handled
      exact ⟨handled.numerator rfl, fun less => handled.negative rfl less more⟩
    · rintro ⟨positive, negative⟩
      exact ⟨fun zero => absurd zero nonzero, fun _ => positive,
        fun _ less _ => negative less, fun least => absurd least more⟩
  have absolute : |d| = if d < 0 then int32 (-d) else d := by
    rw [int32_neg fits, if_neg more]
    split
    · exact abs_of_neg ‹_›
    · exact abs_of_nonneg (not_lt.1 ‹_›)
  have sameGcd : SystemOfEquations.gcd int32Min |d| = SystemOfEquations.gcd int32Min d := by
    rw [SystemOfEquations.gcd, SystemOfEquations.gcd, abs32_abs fits more]
  have sizes := gcd_natAbs fits_int32Min fits
  have result : reduce2 ⟨int32Min, d⟩ false =
      checkszPair (int32 (int32Min.tdiv (SystemOfEquations.gcd int32Min d)))
        (int32 (|d|.tdiv (SystemOfEquations.gcd int32Min d))) false := by
    have least : int32Min =
        if int32Min < 0 then int32 (-int32Min) else int32Min := by decide
    rw [reduce2_eq nonzero least absolute, int32_neg_int32Min, ite_self, sameGcd]
  rw [result, handled]
  by_cases odd : Odd d
  · rw [int32_tdiv_unit (sizes.trans ((gcd_int32Min d).2 odd))]
    exact iff_of_true (Or.inl (checkszPair_flag (Or.inl szOk_int32Min)))
      ⟨fun _ => Or.inl odd, fun _ => odd⟩
  · have wide : 2 ≤ (SystemOfEquations.gcd int32Min d).natAbs := by
      have notOne := mt (gcd_int32Min d).1 odd
      have positive := Int.gcd_pos_of_ne_zero_right int32Min nonzero
      omega
    have size' : |d| ≤ 2 ^ 31 :=
      abs_le.2 ⟨fits.low, by have := fits.high; omega⟩
    obtain ⟨a, b, left, right, leftEq, rightEq, checked⟩ :=
      exists_quotients (n := int32Min) (d := |d|) (g := SystemOfEquations.gcd int32Min d)
        (by rw [sizes, Int.gcd, Int.gcd, Int.natAbs_abs]) (by decide)
        (by rwa [abs_abs]) wide
    rw [leftEq, rightEq, checked]
    have absPos : 0 < |d| := abs_pos.2 nonzero
    have minNeg : int32Min < 0 := by decide
    constructor
    · rintro (flagged | ⟨q, exactEq, represents⟩)
      · cases flagged
      · have positive : 0 < b := represents.positive
        have divisorPos : 0 < SystemOfEquations.gcd int32Min d := by
          rw [right] at absPos
          exact pos_of_mul_pos_left absPos positive.le
        refine ⟨fun _ => Or.inr divisorPos, fun less => ?_⟩
        have negative : a < 0 := by
          rw [left] at minNeg
          exact neg_of_mul_neg_right minNeg divisorPos.le
        rw [exactQuotient, if_neg (by exact_mod_cast nonzero)] at exactEq
        have value : (a : ℚ) / b = int32Min / d :=
          represents.value.trans (Option.some.inj exactEq).symm
        have below : (a : ℚ) / b < 0 :=
          div_neg_of_neg_of_pos (by exact_mod_cast negative) (by exact_mod_cast positive)
        have above : (0 : ℚ) < int32Min / d :=
          div_pos_of_neg_of_neg (by exact_mod_cast minNeg) (by exact_mod_cast (by omega : d < 0))
        rw [value] at below
        exact absurd below (lt_asymm above)
    · rintro ⟨positive, negative⟩
      have denominatorPos : 1 < d := by
        rcases lt_or_ge d (-1) with less | more
        · exact absurd (negative less) odd
        · have both := abs_le.1 (le_refl |d|)
          rcases abs_cases d with ⟨same, _⟩ | ⟨same, _⟩ <;> omega
      have divisorPos := (positive denominatorPos).resolve_left odd
      have divisorEq : SystemOfEquations.gcd int32Min d = (Int.gcd int32Min d : Int) := by
        rw [← sizes, Int.natAbs_of_nonneg divisorPos.le]
      rw [abs_of_pos (by omega)] at right
      have numeratorEq : int32Min / (Int.gcd int32Min d : Int) = a := by
        rw [← divisorEq]
        exact Int.ediv_eq_of_eq_mul_right divisorPos.ne' left
      have denominatorEq : d / (Int.gcd int32Min d : Int) = b := by
        rw [← divisorEq]
        exact Int.ediv_eq_of_eq_mul_right divisorPos.ne' right
      have two : (2 : Int) ≤ Int.gcd int32Min d := by
        rw [← sizes]
        exact_mod_cast wide
      have bounds := represents_divided (n := int32Min) (d := d) (by omega) (by
          refine le_trans ?_ (mul_le_mul_of_nonneg_left two (by decide))
          decide)
        (by
          refine le_trans ?_ (mul_le_mul_of_nonneg_left two (by decide))
          have := fits.high
          rw [fracMax, int32Max]
          omega)
      rw [numeratorEq, denominatorEq] at bounds
      refine Or.inr ⟨_, ?_, bounds⟩
      rw [exactQuotient, if_neg (by exact_mod_cast nonzero)]

/-- Another numerator over the smallest integer. -/
theorem reduce2_denominator (fits : Fits32 n) (large : 2 ≤ |n|) (more : n ≠ int32Min) :
    ExactOrFlagged (reduce2 ⟨n, int32Min⟩ false) (exactQuotient n int32Min) ↔
      Handled n int32Min := by
  have nonzero : n ≠ 0 := by
    rintro rfl
    exact absurd large (by decide)
  have minNonzero : int32Min ≠ 0 := by decide
  have handled : Handled n int32Min ↔ Odd n := by
    constructor
    · intro handled
      exact handled.denominator rfl large more
    · intro odd
      exact ⟨fun zero => absurd zero minNonzero, fun least => absurd least more,
        fun least => absurd least more, fun _ _ _ => odd⟩
  have absolute : |n| = if n < 0 then int32 (-n) else n := by
    rw [int32_neg fits, if_neg more]
    split
    · exact abs_of_neg ‹_›
    · exact abs_of_nonneg (not_lt.1 ‹_›)
  have least : int32Min =
      if int32Min < 0 then int32 (-int32Min) else int32Min := by decide
  have sameGcd : SystemOfEquations.gcd |n| int32Min = SystemOfEquations.gcd n int32Min := by
    rw [SystemOfEquations.gcd, SystemOfEquations.gcd, abs32_abs fits more]
  have sizes := gcd_natAbs fits fits_int32Min
  have negated : int32 (-n) = -n := by
    rw [int32_neg fits, if_neg more]
  have result : reduce2 ⟨n, int32Min⟩ false =
      checkszPair (int32 ((-n).tdiv (SystemOfEquations.gcd n int32Min)))
        (int32 (int32Min.tdiv (SystemOfEquations.gcd n int32Min))) false := by
    rw [reduce2_eq minNonzero absolute least, sameGcd]
    congr 1
    rcases lt_or_ge n 0 with below | above
    · rw [if_pos below, if_neg (by decide), abs_of_neg below]
    · rw [if_neg (not_lt.2 above), if_pos (by decide), abs_of_nonneg above, negated]
  have unit : Int.gcd n int32Min = 1 ↔ Odd n := by
    rw [Int.gcd_comm, gcd_int32Min]
  rw [result, handled]
  by_cases odd : Odd n
  · rw [int32_tdiv_unit (sizes.trans (unit.2 odd))]
    exact iff_of_true (Or.inl (checkszPair_flag (Or.inr szOk_int32Min))) odd
  · have wide : 2 ≤ (SystemOfEquations.gcd n int32Min).natAbs := by
      have notOne := mt unit.1 odd
      have positive := Int.gcd_pos_of_ne_zero_right n minNonzero
      omega
    obtain ⟨a, b, left, right, leftEq, rightEq, checked⟩ :=
      exists_quotients (n := -n) (d := int32Min) (g := SystemOfEquations.gcd n int32Min)
        (by rw [sizes, Int.gcd, Int.gcd, Int.natAbs_neg])
        (by
          rw [abs_neg]
          exact abs_le.2 ⟨fits.low, by have := fits.high; omega⟩)
        (by decide) wide
    rw [leftEq, rightEq, checked]
    refine iff_of_false ?_ odd
    rintro (flagged | ⟨q, exactEq, represents⟩)
    · cases flagged
    · have value : (a : ℚ) / b = n / int32Min := by
        rw [exactQuotient, if_neg (by exact_mod_cast minNonzero)] at exactEq
        exact represents.value.trans (Option.some.inj exactEq).symm
      have divisorNonzero : ((SystemOfEquations.gcd n int32Min : Int) : ℚ) ≠ 0 := by
        have : SystemOfEquations.gcd n int32Min ≠ 0 := by
          intro zero
          rw [zero] at wide
          exact absurd wide (by decide)
        exact_mod_cast this
      have scaled : ((-n : Int) : ℚ) / int32Min = (a : ℚ) / b := by
        have top : ((-n : Int) : ℚ) = (SystemOfEquations.gcd n int32Min : Int) * a := by
          exact_mod_cast left
        have bottom : ((int32Min : Int) : ℚ) = (SystemOfEquations.gcd n int32Min : Int) * b := by
          exact_mod_cast right
        rw [top, bottom, mul_div_mul_left _ _ divisorNonzero]
      rw [value] at scaled
      have minCast : ((int32Min : Int) : ℚ) ≠ 0 := by exact_mod_cast minNonzero
      rw [div_left_inj' minCast] at scaled
      have same : -n = n := by exact_mod_cast scaled
      omega

/-- The smallest integer over itself. -/
theorem reduce2_both :
    ExactOrFlagged (reduce2 ⟨int32Min, int32Min⟩ false) (exactQuotient int32Min int32Min) := by
  have divisor : SystemOfEquations.gcd int32Min int32Min = int32Min := by
    have fuel : int32Min.natAbs = (2 ^ 31 - 1) + 1 := by decide
    rw [SystemOfEquations.gcd, show abs32 int32Min = int32Min by decide, if_neg (by decide),
      if_neg (by decide), if_neg (by decide), fuel, gcdLoop, Int.tmod_self,
      if_pos rfl]
  have least : int32Min =
      if int32Min < 0 then int32 (-int32Min) else int32Min := by decide
  rw [reduce2_eq (by decide) least least, divisor,
    show int32 (int32Min.tdiv int32Min) = 1 by decide,
    if_neg (by decide), checkszPair_of_ok (by decide) (by decide)]
  refine Or.inr ⟨1, ?_, by decide, by decide, by decide, by decide, by simp⟩
  rw [exactQuotient, if_neg (by decide), div_self (by decide)]

/-! ## Every pair of components -/

/-- Two components give an exact fraction or set the flag where handled. -/
theorem ofPair_iff (fits : Fits32 n) (fits' : Fits32 d) :
    ExactOrFlagged (ofPair n d false) (exactQuotient n d) ↔ Handled n d := by
  rw [ofPair]
  by_cases one : d = 1
  · subst one
    refine iff_of_true (reduce_one fits) ⟨?_, ?_, ?_, ?_⟩
    · exact fun zero => absurd zero (by decide)
    · exact fun _ less => absurd less (by decide)
    · exact fun _ less => absurd less (by decide)
    · exact fun least => absurd least (by decide)
  by_cases zero : n = 0
  · subst zero
    rw [reduce_zero one]
    constructor
    · intro nonzero
      exact ⟨fun none => absurd none nonzero, fun least => absurd least (by decide),
        fun least => absurd least (by decide),
        fun _ large => absurd large (by decide)⟩
    · rintro handled none
      exact absurd (handled.zero none) (by decide)
  by_cases unit : n = 1 ∨ n = -1
  · rw [reduce_unit unit fits' one]
    have small : ¬ 2 ≤ |n| := by rcases unit with rfl | rfl <;> decide
    have more : n ≠ int32Min := by rcases unit with rfl | rfl <;> decide
    constructor
    · intro nonzero
      exact ⟨fun none => absurd none nonzero, fun least => absurd least more,
        fun least => absurd least more, fun _ large => absurd large small⟩
    · rintro handled none
      exact absurd (handled.zero none) small
  have large : 2 ≤ |n| := by
    rcases abs_cases n with ⟨same, _⟩ | ⟨same, _⟩ <;> omega
  by_cases negOne : d = -1
  · subst negOne
    refine iff_of_true (reduce_negOne fits large) ⟨fun _ => large, ?_, ?_, ?_⟩
    · exact fun _ less => absurd less (by decide)
    · exact fun _ less => absurd less (by decide)
    · exact fun least => absurd least (by decide)
  have general : reduce ⟨n, d⟩ false = reduce2 ⟨n, d⟩ false := by
    rw [reduce, if_neg one, if_neg zero, if_neg unit, if_neg negOne]
  rw [general]
  by_cases none : d = 0
  · subst none
    refine iff_of_true (Or.inl checkszPair_true) ⟨fun _ => large, ?_, ?_, ?_⟩
    · exact fun _ less => absurd less (by decide)
    · exact fun _ less => absurd less (by decide)
    · exact fun least => absurd least (by decide)
  have large' : 2 ≤ |d| := by
    rcases abs_cases d with ⟨same, _⟩ | ⟨same, _⟩ <;> omega
  by_cases least : n = int32Min
  · subst least
    by_cases least' : d = int32Min
    · subst least'
      refine iff_of_true reduce2_both ⟨fun none => absurd none (by decide), ?_,
        fun _ _ more => absurd rfl more, fun _ _ more => absurd rfl more⟩
      exact fun _ less => absurd less (by decide)
    · exact reduce2_numerator fits' large' least'
  · by_cases least' : d = int32Min
    · subst least'
      exact reduce2_denominator fits large least
    · exact iff_of_true (reduce2_small fits fits' none least least')
        (handled_of_small ((szOk_of_fits fits).2 least)
          ((szOk_of_fits fits').2 least') fun zero => absurd zero none)

end OpenUH.Lno.Fractions
