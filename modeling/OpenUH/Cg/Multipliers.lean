import Mathlib.Data.Nat.Prime.Basic
import Mathlib.Tactic.IntervalCases
import OpenUH.Cg.DivideByConstant
import OpenUH.Foundation.ReciprocalDivision

/-!
# The multipliers of a division by a constant

The host computations of the expansion do not fail, and each of them gives a
multiplier whose error is small enough for every numerator of its type.
-/

namespace OpenUH.Cg

open Foundation

/-! ## Host arithmetic -/

theorem uint64_add {first second : Nat} (small : first + second < 2 ^ 64) :
    uint64 ((first : Int) + second) = first + second := by
  unfold uint64
  omega

theorem uint64_sub {first second : Nat} (order : second ≤ first) (small : first < 2 ^ 64) :
    uint64 ((first : Int) - second) = first - second := by
  unfold uint64
  omega

theorem uint32_of_lt {value : Nat} (small : value < 2 ^ 32) : uint32 value = value :=
  Nat.mod_eq_of_lt small

theorem divide_of_pos {dividend divisor : Nat} (positive : 0 < divisor) :
    divide dividend divisor = .ok (dividend / divisor) := by
  unfold divide
  rw [if_neg (Nat.ne_of_gt positive)]

theorem modulo_of_pos {dividend divisor : Nat} (positive : 0 < divisor) :
    modulo dividend divisor = .ok (dividend % divisor) := by
  unfold modulo
  rw [if_neg (Nat.ne_of_gt positive)]

theorem shiftOne_of_lt {count : Nat} (inside : count < 64) : shiftOne count = .ok (2 ^ count) := by
  unfold shiftOne
  rw [if_pos inside]

theorem log2Loop_eq (fuel : Nat) :
    ∀ i t, i < 2 ^ (fuel + 1) → log2Loop fuel (i / 2) t = t + i.log2 := by
  induction fuel with
  | zero =>
      intro i t small
      have none : i.log2 = 0 := by
        rw [Nat.log2_def, if_neg (by omega)]
      rw [none]
      rfl
  | succ fuel ih =>
      intro i t small
      rw [log2Loop, Nat.log2_def]
      by_cases last : i / 2 = 0
      · rw [if_pos last, if_neg (by omega), Nat.add_zero]
      · rw [if_neg last, if_pos (by omega), ih (i / 2) (t + 1) (by rw [pow_succ] at small; omega)]
        omega

/-- `log2_uint` is the binary logarithm. -/
theorem log2Uint_eq {i : Nat} (small : i < 2 ^ 32) : log2Uint i = i.log2 := by
  rw [log2Uint, log2Loop_eq 32 i 0 (by omega), Nat.zero_add]

/-! ## Smaller multipliers -/

/-- The loop shifts both multipliers by as much as it takes from the shift,
as long as they differ. -/
theorem reduceMultiplier_spec (l : Nat) :
    ∀ mLow mHigh, mLow < mHigh →
      ∃ turns l' mLow' mHigh',
        reduceMultiplier l mLow mHigh = (l', mLow', mHigh') ∧
        l' + turns = l ∧ mLow' = mLow / 2 ^ turns ∧
        mHigh' = mHigh / 2 ^ turns ∧ mLow' < mHigh' ∧
        (0 < l → mLow / 2 < mHigh / 2 → 0 < turns) := by
  induction l with
  | zero =>
      intro mLow mHigh differ
      exact ⟨0, 0, mLow, mHigh, rfl, rfl, by simp, by simp, differ,
        fun impossible => absurd impossible (lt_irrefl 0)⟩
  | succ l ih =>
      intro mLow mHigh differ
      rw [reduceMultiplier]
      by_cases still : mLow / 2 < mHigh / 2
      · rw [if_pos still]
        obtain ⟨turns, l', mLow', mHigh', reduced, sum, low, high, differ', -⟩ :=
          ih _ _ still
        refine ⟨turns + 1, l', mLow', mHigh', reduced, by omega, ?_, ?_,
          differ', fun _ _ => Nat.succ_pos _⟩
        · rw [low, Nat.div_div_eq_div_mul, ← pow_succ']
        · rw [high, Nat.div_div_eq_div_mul, ← pow_succ']
      · rw [if_neg still]
        exact ⟨0, l + 1, mLow, mHigh, rfl, rfl, by simp, by simp, differ,
          fun _ step => absurd step still⟩

/--
The smaller multiplier of a divisor: its error is positive, and small for
numerators up to the limit that the first one was made for.
-/
theorem reduceMultiplier_error {d l limit : Nat} (positive : 0 < d)
    (apart : d ≤ 2 ^ (32 + l) / limit) :
    ∃ turns l' mLow' mHigh' e,
      reduceMultiplier l (2 ^ (32 + l) / d)
        ((2 ^ (32 + l) + 2 ^ (32 + l) / limit) / d) = (l', mLow', mHigh') ∧
      l' + turns = l ∧
      mHigh' = (2 ^ (32 + l) + 2 ^ (32 + l) / limit) / d / 2 ^ turns ∧
      d * mHigh' = 2 ^ (32 + l') + e ∧ 0 < e ∧
      e * limit ≤ 2 ^ (32 + l') ∧
      (0 < l → 2 ^ (32 + l) / d / 2 <
        (2 ^ (32 + l) + 2 ^ (32 + l) / limit) / d / 2 → 0 < turns) := by
  have differ : 2 ^ (32 + l) / d < (2 ^ (32 + l) + 2 ^ (32 + l) / limit) / d := by
    have more : (2 ^ (32 + l) + d) / d ≤ (2 ^ (32 + l) + 2 ^ (32 + l) / limit) / d :=
      Nat.div_le_div_right (Nat.add_le_add_left apart _)
    rw [Nat.add_div_right _ positive] at more
    exact more
  obtain ⟨turns, l', mLow', mHigh', reduced, sum, low, high, differ', moves⟩ :=
    reduceMultiplier_spec l _ _ differ
  have scale : (2 : Nat) ^ (32 + l) = 2 ^ (32 + l') * 2 ^ turns := by
    rw [← pow_add]
    congr 1
    omega
  have lowest : mLow' = 2 ^ (32 + l') / d := by
    rw [low, Nat.div_div_eq_div_mul, Nat.mul_comm d, ← Nat.div_div_eq_div_mul,
      scale, Nat.mul_div_cancel _ (Nat.two_pow_pos _)]
  have above : 2 ^ (32 + l') < d * mHigh' := by
    have next : 2 ^ (32 + l') < d * (2 ^ (32 + l') / d + 1) := Nat.lt_mul_div_succ _ positive
    refine lt_of_lt_of_le next (Nat.mul_le_mul_left d ?_)
    omega
  have below : d * mHigh' * 2 ^ turns ≤ 2 ^ (32 + l) + 2 ^ (32 + l) / limit := by
    calc d * mHigh' * 2 ^ turns
        = d * ((2 ^ (32 + l) + 2 ^ (32 + l) / limit) / d / 2 ^ turns *
            2 ^ turns) := by rw [high, Nat.mul_assoc]
      _ ≤ d * ((2 ^ (32 + l) + 2 ^ (32 + l) / limit) / d) :=
          Nat.mul_le_mul_left d (Nat.div_mul_le_self _ _)
      _ ≤ _ := Nat.mul_div_le _ _
  refine ⟨turns, l', mLow', mHigh', d * mHigh' - 2 ^ (32 + l'), reduced, sum,
    high, by omega, by omega, ?_, moves⟩
  refine Nat.le_of_mul_le_mul_right ?_ (Nat.two_pow_pos turns)
  have error : (d * mHigh' - 2 ^ (32 + l')) * 2 ^ turns ≤ 2 ^ (32 + l) / limit := by
    rw [Nat.sub_mul, ← scale]
    omega
  calc (d * mHigh' - 2 ^ (32 + l')) * limit * 2 ^ turns
      = (d * mHigh' - 2 ^ (32 + l')) * 2 ^ turns * limit := by ring
    _ ≤ 2 ^ (32 + l) / limit * limit := Nat.mul_le_mul_right _ error
    _ ≤ 2 ^ (32 + l) := Nat.div_mul_le_self _ _
    _ = 2 ^ (32 + l') * 2 ^ turns := scale

/-! ## Signed divisions -/

/-- What a multiplier has to be for the quotients by `d`. -/
structure Multiplier.Signed (multiplier : Multiplier) (d e : Nat) : Prop where
  packed : multiplier.m < 2 ^ 32
  inRange : multiplier.s < 32
  extra : multiplier.a = decide (2 ^ 31 ≤ multiplier.m)
  scaled : d * multiplier.m = 2 ^ (32 + multiplier.s) + e
  error : 0 < e
  positive : ∀ n < 2 ^ 31,
    n * e < 2 ^ (32 + multiplier.s) * (d - n % d)
  negative : ∀ n ≤ 2 ^ 31,
    n * e ≤ 2 ^ (32 + multiplier.s) * (d - n % d)

/-- The largest multiple of `d` up to `2^31` is more than half of it. -/
theorem half_lt_multiple {d bound : Nat} (positive : 0 < d)
    (inside : d ≤ bound) : bound < 2 * (bound - bound % d) := by
  have split := Nat.div_add_mod bound d
  have below := Nat.mod_lt bound positive
  have several : 1 ≤ bound / d := (Nat.one_le_div_iff positive).mpr inside
  have whole : d ≤ d * (bound / d) := Nat.le_mul_of_pos_right _ several
  omega

/--
The numerator `-2^31` where `d` divides `2^31 + 1`: the error differs from
`2^(s+1)` by a multiple of `d`, and a larger one is not small enough for the
multiples of `d`.
-/
theorem error_le_of_dvd {d e m s : Nat} (scaled : d * m = 2 ^ (32 + s) + e)
    (small : d < 2 ^ 31) (scale : 2 ^ s ≤ d) (limited : e * (2 ^ 31 - 2 ^ 31 % d) ≤ 2 ^ (32 + s))
    (whole : d ∣ 2 ^ 31 + 1) : e ≤ 2 ^ (s + 1) := by
  obtain ⟨quotient, product⟩ := whole
  by_contra large
  have positive : 0 < d := lt_of_lt_of_le (Nat.two_pow_pos s) scale
  have congruent : d ∣ e - 2 ^ (s + 1) := by
    have sum : d * m + 2 ^ (s + 1) = e + 2 ^ (s + 1) * (2 ^ 31 + 1) := by
      rw [scaled]
      ring
    have both : d ∣ e - 2 ^ (s + 1) + (2 ^ (s + 1) * (2 ^ 31 + 1) + 0) := by
      refine ⟨m, ?_⟩
      omega
    refine (Nat.dvd_add_left ?_).mp both
    exact ⟨2 ^ (s + 1) * quotient, by rw [product]; ring⟩
  have far : 2 ^ (s + 1) + d ≤ e := by
    have := Nat.le_of_dvd (by omega) congruent
    omega
  have remainder : 2 ^ 31 % d = d - 1 := by
    have several : 0 < quotient := by
      rcases Nat.eq_zero_or_pos quotient with none | positiveQuotient
      · rw [none] at product
        omega
      · exact positiveQuotient
    obtain ⟨rest, rfl⟩ : ∃ rest, quotient = rest + 1 := ⟨quotient - 1, by omega⟩
    have last : 2 ^ 31 = d * rest + (d - 1) := by
      rw [Nat.mul_succ] at product
      omega
    rw [last, Nat.mul_add_mod, Nat.mod_eq_of_lt (by omega)]
  have bounded : (2 ^ (s + 1) + d) * (2 ^ 31 + 1 - d) ≤ 2 ^ (32 + s) := by
    refine le_trans (Nat.mul_le_mul_right _ far) ?_
    rw [remainder] at limited
    have same : 2 ^ 31 - (d - 1) = 2 ^ 31 + 1 - d := by omega
    rwa [same] at limited
  obtain ⟨rest, complement⟩ : ∃ rest, rest + d = 2 ^ 31 + 1 := ⟨2 ^ 31 + 1 - d, by omega⟩
  have close : rest < 2 * 2 ^ s := by
    have difference : 2 ^ 31 + 1 - d = rest := by omega
    rw [difference] at bounded
    have expanded : 2 * 2 ^ s * rest + d * rest ≤ 2 * 2 ^ s * rest + 2 * 2 ^ s * (d - 1) := by
      calc 2 * 2 ^ s * rest + d * rest = (2 ^ (s + 1) + d) * rest := by ring
        _ ≤ 2 ^ (32 + s) := bounded
        _ = 2 * 2 ^ s * 2 ^ 31 := by ring
        _ = 2 * 2 ^ s * (rest + (d - 1)) := by
            congr 1
            omega
        _ = _ := by ring
    refine Nat.lt_of_mul_lt_mul_left (a := d) ?_
    calc d * rest ≤ 2 * 2 ^ s * (d - 1) := by omega
      _ < 2 * 2 ^ s * d := Nat.mul_lt_mul_of_pos_left (by omega) (by positivity)
      _ = d * (2 * 2 ^ s) := Nat.mul_comm _ _
  have few : quotient < 3 := by
    by_contra many
    have three : d * 3 ≤ d * quotient := Nat.mul_le_mul_left d (by omega)
    omega
  interval_cases quotient <;> omega

/-- The host computation of a signed division with 32 bits. -/
theorem signedMultiplier_spec {denom_val : Int} {d : Nat}
    (same : denom_val.natAbs = d) (large : 1 < d) (small : d < 2 ^ 31) (noPower : ∀ i, d ≠ 2 ^ i) :
    ∃ multiplier e, signedMultiplier denom_val = .ok multiplier ∧ multiplier.Signed d e := by
  have nonzero : d ≠ 0 := by omega
  have lower : 2 ^ d.log2 < d := lt_of_le_of_ne (Nat.log2_self_le nonzero) (noPower _).symm
  have upper : d < 2 ^ (d.log2 + 1) := Nat.lt_log2_self
  have short : d.log2 < 31 := (Nat.log2_lt nonzero).mpr small
  have logarithm : log2Uint d = d.log2 := log2Uint_eq (by omega)
  generalize d.log2 = l at *
  have half := half_lt_multiple (by omega : 0 < d) (by omega : d ≤ 0x80000000)
  have multiple : 0x80000000 - 0x80000000 % d ≤ 0x80000000 := Nat.sub_le _ _
  have remainder := Nat.mod_lt 0x80000000 (by omega : 0 < d)
  obtain ⟨limit, limitIs⟩ : ∃ limit, limit = 0x80000000 - 0x80000000 % d := ⟨_, rfl⟩
  have bounded : limit ≤ 2 ^ 31 := by omega
  have apart : d ≤ 2 ^ (32 + l) / limit := by
    rw [Nat.le_div_iff_mul_le (by omega)]
    calc d * limit ≤ 2 ^ (l + 1) * 2 ^ 31 := Nat.mul_le_mul upper.le bounded
      _ = 2 ^ (32 + l) := by
          rw [← pow_add]
          congr 1
          omega
  have extraSmall : 2 ^ (32 + l) / limit < 2 ^ 32 := by
    rw [Nat.div_lt_iff_lt_mul (by omega)]
    have scaleSmall : 2 ^ (32 + l) ≤ 2 ^ 32 * 2 ^ 30 := by
      rw [← pow_add]
      exact Nat.pow_le_pow_right (by omega) (by omega)
    omega
  have sumSmall : 2 ^ (32 + l) + 2 ^ (32 + l) / limit < 2 ^ 64 := by
    have scaleSmall : 2 ^ (32 + l) ≤ 2 ^ 62 := Nat.pow_le_pow_right (by omega) (by omega)
    omega
  obtain ⟨turns, l', mLow, mHigh, e, reduced, sum, high, scaled, error,
    limited, -⟩ := reduceMultiplier_error (by omega : 0 < d) apart
  have packed : mHigh < 2 ^ 32 := by
    rw [high]
    refine lt_of_le_of_lt (Nat.div_le_self _ _) ?_
    rw [Nat.div_lt_iff_lt_mul (by omega)]
    have product : 2 ^ 32 * (2 ^ l + 1) ≤ 2 ^ 32 * d := Nat.mul_le_mul_left _ lower
    rw [Nat.mul_succ, ← pow_add] at product
    omega
  have computed : signedMultiplier denom_val =
      .ok { m := mHigh, s := l', a := mHigh / 2 ^ 31 ≠ 0 } := by
    have limitPattern : uint64 ((0x80000000 : Int) - (0x80000000 % d : Nat)) = limit := by
      rw [limitIs]
      exact @uint64_sub 0x80000000 _ (by omega) (by omega)
    unfold signedMultiplier
    simp only [same, uint32_of_lt (by omega : d < 2 ^ 32), logarithm,
      modulo_of_pos (by omega : 0 < d), shiftOne_of_lt (by omega : 32 + l < 64),
      divide_of_pos (by omega : 0 < d), limitPattern,
      divide_of_pos (by omega : 0 < limit), uint64_add sumSmall, bind,
      Except.bind, reduced, uint32_of_lt packed, pure, Except.pure]
  have smaller : 2 ^ l' ≤ d := le_trans (Nat.pow_le_pow_right (by omega) (by omega)) lower.le
  have accepted : ∀ n ≤ 2 ^ 31, (n = 2 ^ 31 → ¬d ∣ 2 ^ 31 + 1) →
      n * e < 2 ^ (32 + l') * (d - n % d) := fun n =>
    Reciprocal.small_of_multiple (by omega) small.le (Nat.two_pow_pos _)
      (by rw [limitIs] at limited; exact limited)
  refine ⟨_, e, computed, packed, by dsimp only; omega, ?_, scaled, error, ?_, ?_⟩
  · dsimp only
    rw [decide_eq_decide]
    omega
  · intro n below
    exact accepted n below.le fun isBound => absurd isBound (Nat.ne_of_lt below)
  · intro n below
    by_cases special : n = 2 ^ 31 ∧ d ∣ 2 ^ 31 + 1
    · obtain ⟨rfl, whole⟩ := special
      have least : e ≤ 2 ^ (l' + 1) :=
        error_le_of_dvd scaled small smaller (by rw [limitIs] at limited; exact limited) whole
      have gap : 0 < d - 2 ^ 31 % d := Nat.sub_pos_of_lt (Nat.mod_lt _ (by omega))
      calc 2 ^ 31 * e ≤ 2 ^ 31 * 2 ^ (l' + 1) := Nat.mul_le_mul_left _ least
        _ = 2 ^ (32 + l') := by
            rw [← pow_add]
            congr 1
            omega
        _ ≤ 2 ^ (32 + l') * (d - 2 ^ 31 % d) := Nat.le_mul_of_pos_right _ gap
    · exact (accepted n below fun isBound whole => special ⟨isBound, whole⟩).le

/-! ## Unsigned divisions -/

theorem oddPart_spec (fuel : Nat) :
    ∀ t n, 0 < t → t < 2 ^ fuel →
      ∃ t' twos, oddPart fuel t n = (t', n + twos) ∧ t' * 2 ^ twos = t ∧ t' % 2 = 1 := by
  induction fuel with
  | zero =>
      intro t n positive small
      omega
  | succ fuel ih =>
      intro t n positive small
      rw [oddPart]
      by_cases even : t % 2 = 0
      · rw [if_pos even]
        obtain ⟨t', twos, taken, product, isOdd⟩ :=
          ih (t / 2) (n + 1) (by omega) (by rw [pow_succ] at small; omega)
        refine ⟨t', twos + 1, by rw [taken]; congr 1; omega, ?_, isOdd⟩
        rw [pow_succ, ← Nat.mul_assoc, product]
        omega
      · rw [if_neg even]
        exact ⟨t, 0, rfl, by simp, by omega⟩

/-- What a multiplier has to be for the unsigned quotients by `d`: with one
more addition it stands for twice its value and one. -/
structure Multiplier.Unsigned (multiplier : Multiplier) (d : Nat) : Prop where
  packed : multiplier.m < 2 ^ 32
  inRange : multiplier.s < 32
  simple : multiplier.a = false → ∀ n < 2 ^ 32,
    n * multiplier.m / 2 ^ (32 + multiplier.s) = n / d
  extended : multiplier.a = true → 2 ^ 31 ≤ multiplier.m ∧ ∀ n < 2 ^ 32,
    n * (2 * multiplier.m + 1) / 2 ^ (33 + multiplier.s) = n / d

/-- An odd divisor above one does not divide a power of two. -/
theorem not_dvd_two_pow {t exponent : Nat} (odd : t % 2 = 1) (large : 1 < t) :
    ¬t ∣ 2 ^ exponent := by
  intro whole
  obtain ⟨power, -, rfl⟩ := (Nat.dvd_prime_pow Nat.prime_two).mp whole
  cases power with
  | zero => exact lt_irrefl 1 large
  | succ power =>
      rw [pow_succ] at odd
      omega

/-- A quotient by the odd part is shifted on to the quotient by the divisor. -/
theorem div_of_oddPart {n m t d twos exponent : Nat} (product : t * 2 ^ twos = d)
    (quotient : n * m / 2 ^ exponent = n / t) :
    n * m / 2 ^ (exponent + twos) = n / d := by
  rw [← Reciprocal.div_div, quotient, Nat.div_div_eq_div_mul, product]

/--
Where the smaller multiplier does not fit, the remainder of the shorter
scale is at most half of the divisor.
-/
theorem remainder_le_half {t s k : Nat} (odd : t % 2 = 1) (enough : t < k)
    (stuck : ¬2 ^ (32 + (s + 1)) / t / 2 < (2 ^ (32 + (s + 1)) + k) / t / 2) :
    2 ^ (32 + s) % t ≤ t / 2 := by
  by_contra large
  refine stuck ?_
  have positive : 0 < t := by omega
  have split := Nat.div_add_mod (2 ^ (32 + s)) t
  have below := Nat.mod_lt (2 ^ (32 + s)) positive
  have double : 2 ^ (32 + (s + 1)) = 2 * 2 ^ (32 + s) := by
    rw [← pow_succ']
    congr 1
  rw [double]
  generalize 2 ^ (32 + s) / t = low at *
  generalize 2 ^ (32 + s) % t = r at *
  rw [← split]
  have first : (2 * (t * low + r)) / t < 2 * low + 2 := by
    rw [Nat.div_lt_iff_lt_mul positive, Nat.add_mul, Nat.mul_add, Nat.mul_assoc, Nat.mul_comm low t]
    omega
  have second : 2 * low + 2 ≤ (2 * (t * low + r) + k) / t := by
    rw [Nat.le_div_iff_mul_le positive, Nat.add_mul, Nat.mul_add, Nat.mul_assoc, Nat.mul_comm low t]
    omega
  omega

/-- The multiplier with one more bit. -/
theorem extended_quotient {t s n : Nat} (upper : t < 2 ^ (s + 1))
    (remainder : 2 ^ (32 + s) % t ≤ t / 2) (odd : t % 2 = 1) (below : n < 2 ^ 32) :
    n * (2 * (2 ^ (32 + s) / t) + 1) / 2 ^ (33 + s) = n / t := by
  have split := Nat.div_add_mod (2 ^ (32 + s)) t
  have double : 2 ^ (33 + s) = 2 * 2 ^ (32 + s) := by
    rw [← pow_succ']
    congr 1
    omega
  refine Reciprocal.mul_div_eq (e := t - 2 * (2 ^ (32 + s) % t)) ?_ (by omega) ?_
  · rw [double, Nat.mul_add, Nat.mul_left_comm, Nat.mul_one]
    omega
  · have scale : 33 + s = s + 1 + 32 := by omega
    rw [scale]
    exact Reciprocal.small_of_lt (by omega) below.le (by omega)

/-- The host computation of an unsigned division with 32 bits. -/
theorem unsignedMultiplier_spec {denom_val : Int} {d : Nat}
    (same : uint32 (uint64 denom_val) = d) (nonzero : 0 < d)
    (small : d < 2 ^ 31) (noPower : ∀ i, d ≠ 2 ^ i) :
    ∃ multiplier, unsignedMultiplier denom_val = .ok multiplier ∧ multiplier.Unsigned d := by
  obtain ⟨t, twos, taken, product, odd⟩ := oddPart_spec 32 d 0 nonzero (by omega)
  rw [Nat.zero_add] at taken
  have large : 1 < t := by
    by_contra one
    have isOne : t = 1 := by omega
    rw [isOne, Nat.one_mul] at product
    exact noPower twos product.symm
  have whole : t ≤ d := by
    rw [← product]
    exact Nat.le_mul_of_pos_right _ (Nat.two_pow_pos _)
  have logarithm : log2Uint t = t.log2 := log2Uint_eq (by omega)
  have upper : t < 2 ^ (t.log2 + 1) := Nat.lt_log2_self
  have lower : 2 ^ t.log2 < t :=
    lt_of_le_of_ne (Nat.log2_self_le (by omega)) fun isPower =>
      not_dvd_two_pow odd large (dvd_of_eq isPower.symm)
  generalize t.log2 = s at *
  have shifts : s + twos < 31 := by
    have power : 2 ^ (s + twos) < 2 ^ 31 := by
      calc 2 ^ (s + twos) = 2 ^ s * 2 ^ twos := pow_add _ _ _
        _ ≤ t * 2 ^ twos := Nat.mul_le_mul_right _ lower.le
        _ < 2 ^ 31 := by omega
    exact (Nat.pow_lt_pow_iff_right (by omega)).mp power
  have half := half_lt_multiple (by omega : 0 < t) (by omega : t ≤ 0xffffffff)
  have remainder := Nat.mod_lt 0xffffffff (by omega : 0 < t)
  obtain ⟨limit, limitIs⟩ : ∃ limit, limit = 0xffffffff - 0xffffffff % t := ⟨_, rfl⟩
  have apart : 2 ^ (s + 1) ≤ 2 ^ (32 + (s + 1)) / limit := by
    have bounded : limit ≤ 2 ^ 32 := by omega
    rw [Nat.le_div_iff_mul_le (by omega)]
    calc 2 ^ (s + 1) * limit ≤ 2 ^ (s + 1) * 2 ^ 32 :=
          Nat.mul_le_mul_left _ bounded
      _ = 2 ^ (32 + (s + 1)) := by rw [Nat.mul_comm, ← pow_add]
  have extraSmall : 2 ^ (32 + (s + 1)) / limit ≤ 2 ^ 32 := by
    refine Nat.div_le_of_le_mul ?_
    calc 2 ^ (32 + (s + 1)) ≤ 2 ^ (31 + 32) :=
          Nat.pow_le_pow_right (by omega) (by omega)
      _ ≤ limit * 2 ^ 32 := by omega
  have scaleSmall : 2 ^ (32 + (s + 1)) ≤ 2 ^ 63 := Nat.pow_le_pow_right (by omega) (by omega)
  have sumSmall : 2 ^ (32 + (s + 1)) + 2 ^ (32 + (s + 1)) / limit < 2 ^ 64 := by
    omega
  obtain ⟨turns, l', mLow, mHigh, e, reduced, sum, high, scaled, error, limited, moves⟩ :=
    reduceMultiplier_error (by omega : 0 < t) (upper.le.trans apart)
  have limitPattern : uint64 ((0xffffffff : Int) - (0xffffffff % t : Nat)) = limit := by
    rw [limitIs]
    exact @uint64_sub 0xffffffff _ (by omega) (by omega)
  have head : unsignedMultiplier denom_val =
      if mHigh / 2 ^ 32 = 0 then
        .ok { m := uint32 mHigh, s := uint32 (l' + twos), a := false }
      else
        .ok { m := if uint32 (2 ^ (32 + s) % t) < t / 2 + 1 then
                uint32 (2 ^ (32 + s) / t)
              else uint32 (uint32 (2 ^ (32 + s) / t) + 1),
              s := uint32 (s + twos), a := true } := by
    unfold unsignedMultiplier
    simp only [same, taken, logarithm, modulo_of_pos (by omega : 0 < t),
      shiftOne_of_lt (by omega : 32 + (s + 1) < 64),
      shiftOne_of_lt (by omega : 32 + s < 64),
      divide_of_pos (by omega : 0 < t), limitPattern,
      divide_of_pos (by omega : 0 < limit), uint64_add sumSmall, bind,
      Except.bind, reduced, pure, Except.pure]
  rw [head]
  by_cases fits : mHigh / 2 ^ 32 = 0
  · have packed : mHigh < 2 ^ 32 := by omega
    rw [if_pos fits, uint32_of_lt packed, uint32_of_lt (by omega)]
    refine ⟨_, rfl, packed, by dsimp only; omega, fun _ n below => ?_,
      fun impossible => nomatch impossible⟩
    dsimp only
    rw [← Nat.add_assoc]
    refine div_of_oddPart product (Reciprocal.mul_div_eq scaled (by omega) ?_)
    refine @Reciprocal.small_of_multiple n t e _ 0xffffffff (by omega)
      (by omega) (Nat.two_pow_pos _) ?_ (by omega)
      fun _ => @not_dvd_two_pow t 32 odd large
    rw [← limitIs]
    exact limited
  · have first : (2 ^ (32 + (s + 1)) + 2 ^ (32 + (s + 1)) / limit) / t < 2 ^ 33 := by
      rw [Nat.div_lt_iff_lt_mul (by omega)]
      have above : 2 ^ 33 * (2 ^ s + 1) ≤ 2 ^ 33 * t := Nat.mul_le_mul_left _ lower
      have scale : 2 ^ 33 * 2 ^ s = 2 ^ (32 + (s + 1)) := by
        rw [← pow_add]
        congr 1
        omega
      omega
    have still : turns = 0 := by
      by_contra moved
      have halved : mHigh ≤ (2 ^ (32 + (s + 1)) + 2 ^ (32 + (s + 1)) / limit) / t / 2 := by
        rw [high]
        exact Nat.div_le_div_left (Nat.le_self_pow moved 2) (by omega)
      omega
    have remainderHalf : 2 ^ (32 + s) % t ≤ t / 2 :=
      remainder_le_half odd (upper.trans_le apart) fun apartStill =>
        absurd (moves (by omega) apartStill) (by omega)
    have packed : 2 ^ (32 + s) / t < 2 ^ 32 := by
      rw [Nat.div_lt_iff_lt_mul (by omega), pow_add]
      exact Nat.mul_lt_mul_of_pos_left lower (by omega)
    have topBit : 2 ^ 31 ≤ 2 ^ (32 + s) / t := by
      rw [Nat.le_div_iff_mul_le (by omega)]
      calc 2 ^ 31 * t ≤ 2 ^ 31 * 2 ^ (s + 1) := Nat.mul_le_mul_left _ upper.le
        _ = 2 ^ (32 + s) := by
            rw [← pow_add]
            congr 1
            omega
    rw [if_neg fits, uint32_of_lt (by omega : 2 ^ (32 + s) % t < 2 ^ 32),
      if_pos (by omega), uint32_of_lt packed, uint32_of_lt (by omega)]
    refine ⟨_, rfl, packed, by dsimp only; omega,
      fun impossible => (nomatch impossible),
      fun _ => ⟨topBit, fun n below => ?_⟩⟩
    dsimp only
    rw [← Nat.add_assoc]
    exact div_of_oddPart product (extended_quotient upper remainderHalf odd below)

end OpenUH.Cg
