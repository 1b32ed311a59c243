import OpenUH.Cg.DivideSequences

/-!
# Divisions by powers of two

A divisor and a numerator are numbers of one of the four integer types.  For a
power of two the expansion always gives a sequence of shifts, and the sequence
leaves the truncated quotient.
-/

namespace OpenUH.Cg

open Foundation

/-! ## Numbers of the integer types -/

/-- A divisor, and the `INT64` that the expansion gets for it.  A divisor of
type `U4` comes with a sign or without. -/
def MType.Represents (mtype : MType) (denom_val d : Int) : Prop :=
  match mtype with
  | .I4 => denom_val = d ∧ -2 ^ 31 ≤ d ∧ d < 2 ^ 31
  | .I8 => denom_val = d ∧ -2 ^ 63 ≤ d ∧ d < 2 ^ 63
  | .U4 => (denom_val = d ∨ denom_val = Int.bmod d (2 ^ 32)) ∧ 0 ≤ d ∧ d < 2 ^ 32
  | .U8 => denom_val = Int.bmod d (2 ^ 64) ∧ 0 ≤ d ∧ d < 2 ^ 64

/-- A TN holds a number of a type.  An unsigned number of 32 bits has no bits
above them. -/
def Machine.Holds (machine : Machine) (mtype : MType) (tn : Nat) (n : Int) : Prop :=
  match mtype with
  | .I4 => (machine.read 32 tn).toInt = n
  | .I8 => (machine.read 64 tn).toInt = n
  | .U4 => ((machine.read 64 tn).toNat : Int) = n ∧ n < 2 ^ 32
  | .U8 => ((machine.read 64 tn).toNat : Int) = n

/-- A sequence leaves the quotient of every numerator, the smallest number
divided by minus one apart. -/
def Divides (ops : List Op) (mtype : MType) (result numer : Nat) (d : Int) : Prop :=
  ∀ (machine : Machine) (n : Int), machine.Holds mtype numer n →
    ¬(mtype.isSigned ∧ n = -2 ^ (mtype.sizeReg - 1) ∧ d = -1) →
    ∃ after, machine.exec ops = some after ∧ after.Holds mtype result (n.tdiv d)

namespace MType

variable {mtype : MType} {denom_val d : Int} {machine : Machine} {tn : Nat}
  {n : Int}

theorem sizeReg_pos : 0 < mtype.sizeReg := by
  cases mtype <;> decide

theorem sizeReg_le : mtype.sizeReg ≤ 64 := by
  cases mtype <;> decide

theorem sizeReg_eq : mtype.sizeReg = 32 ∨ mtype.sizeReg = 64 := by
  cases mtype <;> decide

theorem holds_signed (signed : mtype.isSigned = true) :
    machine.Holds mtype tn n ↔ (machine.read mtype.sizeReg tn).toInt = n := by
  cases mtype <;> first | rfl | exact absurd signed (by decide)

theorem holds_unsigned (unsigned : mtype.isSigned = false) :
    machine.Holds mtype tn n ↔ ((machine.read 64 tn).toNat : Int) = n ∧ n < 2 ^ mtype.sizeReg := by
  cases mtype with
  | I4 | I8 => exact absurd unsigned (by decide)
  | U4 => rfl
  | U8 =>
      have host := (machine.read 64 tn).isLt
      refine ⟨fun holds => ⟨holds, ?_⟩, And.left⟩
      change ((machine.read 64 tn).toNat : Int) = n at holds
      change n < 2 ^ 64
      omega

/-- A result with the natural quotient holds the truncated one. -/
theorem holds_of_toNat (unsigned : mtype.isSigned = false) {numerator divisor : Nat}
    (small : numerator < 2 ^ mtype.sizeReg)
    (quotient : (machine.read 64 tn).toNat = numerator / divisor) :
    machine.Holds mtype tn ((numerator : Int).tdiv divisor) := by
  rw [holds_unsigned unsigned, quotient, Int.ofNat_tdiv]
  refine ⟨rfl, ?_⟩
  rw [← Int.ofNat_tdiv]
  exact_mod_cast lt_of_le_of_lt (Nat.div_le_self _ _) small

theorem represents_signed (signed : mtype.isSigned = true)
    (represents : mtype.Represents denom_val d) :
    denom_val = d ∧ -2 ^ (mtype.sizeReg - 1) ≤ d ∧ d < 2 ^ (mtype.sizeReg - 1) := by
  cases mtype <;> first | exact represents | exact absurd signed (by decide)

theorem represents_unsigned (unsigned : mtype.isSigned = false)
    (represents : mtype.Represents denom_val d) :
    0 ≤ d ∧ d < 2 ^ mtype.sizeReg := by
  cases mtype <;> first | exact represents.2 | exact absurd unsigned (by decide)

/-- The lower bits of a host value of an unsigned divisor. -/
theorem uint64_eq (isU8 : mtype = .U8) (represents : mtype.Represents denom_val d) :
    uint64 denom_val = d.natAbs := by
  subst isU8
  obtain ⟨rfl, low, high⟩ := represents
  have residue := @Int.bmod_emod d (2 ^ 64)
  unfold uint64
  omega

theorem uint32_eq (isU4 : mtype = .U4) (represents : mtype.Represents denom_val d) :
    uint32 (uint64 denom_val) = d.natAbs := by
  subst isU4
  obtain ⟨same, low, high⟩ := represents
  have residue := @Int.bmod_emod d (2 ^ 32)
  unfold uint32 uint64
  rcases same with same | same <;> rw [same]
  · omega
  · omega

/-- The size of a signed divisor. -/
theorem uint64_size (signed : mtype.isSigned = true) (represents : mtype.Represents denom_val d) :
    uint64 (if denom_val < 0 then -denom_val else denom_val) = d.natAbs := by
  obtain ⟨rfl, low, high⟩ := represents_signed signed represents
  have most : (2 : Int) ^ (mtype.sizeReg - 1) ≤ 2 ^ 63 := by
    cases mtype <;> decide
  unfold uint64
  split <;> omega

/-- An unsigned divisor comes without a sign, or as a number far above its
type. -/
theorem uint64_cases (unsigned : mtype.isSigned = false)
    (represents : mtype.Represents denom_val d) :
    uint64 denom_val = d.natAbs ∨ 2 ^ 33 < uint64 denom_val ∧ mtype.sizeReg = 32 := by
  cases mtype with
  | I4 | I8 => exact absurd unsigned (by decide)
  | U4 =>
      obtain ⟨same, low, high⟩ := represents
      rcases same with rfl | rfl
      · refine .inl ?_
        unfold uint64
        omega
      · rw [Int.bmod_eq_emod]
        unfold uint64
        split
        · refine .inr ⟨?_, rfl⟩
          omega
        · refine .inl ?_
          omega
  | U8 => exact .inl (uint64_eq rfl represents)

/-- What the tests for powers of two look at is the size of the divisor. -/
theorem powerPattern_eq (represents : mtype.Represents denom_val d) :
    powerPattern denom_val mtype = d.natAbs := by
  unfold powerPattern
  cases mtype with
  | I4 | I8 =>
      simp only [isSigned, true_and]
      exact uint64_size rfl represents
  | U4 => exact uint32_eq rfl represents
  | U8 => exact uint64_eq rfl represents

end MType

/-! ## Powers of two -/

theorem isPowerOf2_iff {mtype : MType} {denom_val d : Int}
    (represents : mtype.Represents denom_val d) :
    isPowerOf2 denom_val mtype = true ↔ ∃ i, d.natAbs = 2 ^ i := by
  unfold isPowerOf2
  rw [MType.powerPattern_eq represents, decide_eq_true_eq]
  exact Nat.ne_zero_and_sub_one_eq_zero_iff_isPowerOfTwo

theorem getPowerOf2_eq {mtype : MType} {denom_val d : Int} {i : Nat}
    (represents : mtype.Represents denom_val d) (power : d.natAbs = 2 ^ i)
    (inside : i < mtype.sizeReg) : getPowerOf2 denom_val mtype = .ok i := by
  unfold getPowerOf2
  rw [MType.powerPattern_eq represents, power]
  have found : (List.range mtype.sizeReg).find? (fun j => decide (2 ^ i = 2 ^ j)) = some i := by
    rw [List.find?_range_eq_some]
    refine ⟨decide_eq_true rfl, List.mem_range.mpr inside, fun j below => ?_⟩
    have apart : 2 ^ i ≠ 2 ^ j := Nat.ne_of_gt (Nat.pow_lt_pow_right (by omega) below)
    rw [decide_eq_false apart]
    rfl
  rw [found]

theorem natAbs_le_two_pow {n : Int} {bound : Nat} (low : -2 ^ bound ≤ n)
    (high : n < 2 ^ bound) : n.natAbs ≤ 2 ^ bound := by
  zify
  rw [abs_le]
  constructor <;> linarith

theorem exponent_lt {mtype : MType} {denom_val d : Int} {i : Nat}
    (represents : mtype.Represents denom_val d) (power : d.natAbs = 2 ^ i) :
    i < mtype.sizeReg := by
  have least := mtype.sizeReg_pos
  refine (Nat.pow_lt_pow_iff_right (by omega : 1 < 2)).mp ?_
  rw [← power]
  cases signed : mtype.isSigned with
  | true =>
      obtain ⟨-, low, high⟩ := MType.represents_signed signed represents
      have half : 2 ^ (mtype.sizeReg - 1) < 2 ^ mtype.sizeReg :=
        Nat.pow_lt_pow_right (by omega) (by omega)
      have size := natAbs_le_two_pow low high
      omega
  | false =>
      obtain ⟨low, high⟩ := MType.represents_unsigned signed represents
      zify
      rw [abs_of_nonneg low]
      exact high

/-- The truncated quotient by a power of two: the numerator is rounded towards
zero before the shift. -/
theorem tdiv_two_pow {n : Int} {i : Nat} :
    ((if n < 0 then 2 ^ i - 1 else 0) + n) / 2 ^ i = n.tdiv (2 ^ i) := by
  have power : (0 : Int) < 2 ^ i := by positivity
  split
  · rename_i negative
    obtain ⟨x, rfl⟩ : ∃ x : Nat, n = -x := ⟨n.natAbs, by omega⟩
    have split := Int.emod_add_mul_ediv (x : Int) (2 ^ i)
    have low := Int.emod_nonneg (x : Int) power.ne'
    have high := Int.emod_lt_of_pos (x : Int) power
    rw [Int.neg_tdiv, Int.tdiv_eq_ediv_of_nonneg (Int.natCast_nonneg x)]
    have rounded : 2 ^ i - 1 + -(x : Int) =
        2 ^ i - 1 - (x : Int) % 2 ^ i + 2 ^ i * -((x : Int) / 2 ^ i) := by
      linarith
    rw [rounded, Int.add_mul_ediv_left _ _ power.ne',
      Int.ediv_eq_zero_of_lt (by linarith) (by linarith), Int.zero_add]
  · rw [Int.zero_add, Int.tdiv_eq_ediv_of_nonneg (by omega)]

/-- An immediate is taken from the lower bits of an `INT64`. -/
theorem ofInt_int64 {width : Nat} {value : Int} (wide : width ≤ 64) :
    BitVec.ofInt width (int64 value) = BitVec.ofInt width value := by
  have host : BitVec.ofInt 64 (int64 value) = BitVec.ofInt 64 value := by
    refine BitVec.eq_of_toInt_eq ?_
    rw [BitVec.toInt_ofInt, BitVec.toInt_ofInt, int64, Int.bmod_bmod]
  rw [← Words.setWidth_ofInt wide, host, Words.setWidth_ofInt wide]

/-- The mask of a numerator's sign. -/
theorem sign_and {width : Nat} {n mask : Int} (positive : 0 < width)
    (low : -2 ^ (width - 1) ≤ n) (high : n < 2 ^ (width - 1)) :
    shiftValue .aright (BitVec.ofInt width n) (width - 1) &&&
        BitVec.ofInt width mask =
      BitVec.ofInt width (if n < 0 then mask else 0) := by
  rw [shiftValue_aright positive low high, ediv_sign low high]
  split
  · have ones : BitVec.ofInt width (-1) = BitVec.allOnes width := by
      rw [BitVec.ofInt_neg, ← BitVec.neg_one_eq_allOnes]
      rfl
    rw [ones, BitVec.allOnes_and]
  · exact BitVec.zero_and

section Expansion

variable {result numer next : Nat} {mtype : MType} {denom_val d : Int}

theorem emit_of_all {ops : List Op} (inside : ops.all Op.shiftInRange = true) :
    emit ops = .ok (some ops) := by
  rw [emit, if_pos inside]

/-- The words of a signed division by a power of two. -/
theorem power_word {width i : Nat} {n : Int} (inside : i < width)
    (low : -2 ^ (width - 1) ≤ n) (high : n < 2 ^ (width - 1)) :
    shiftValue .aright
        ((shiftValue .aright (BitVec.ofInt width n) (width - 1) &&&
          BitVec.ofInt width (2 ^ i - 1)) + BitVec.ofInt width n) i =
      BitVec.ofInt width (n.tdiv (2 ^ i)) := by
  have power : (0 : Int) < 2 ^ i := by positivity
  have most : (2 : Int) ^ i ≤ 2 ^ (width - 1) := pow_le_pow_right₀ (by decide) (by omega)
  rw [sign_and (by omega) low high, ← BitVec.ofInt_add,
    shiftValue_aright (by omega) (by split <;> linarith) (by split <;> linarith), tdiv_two_pow]

/-- The mask of the bits below the power. -/
theorem ofInt_mask {width i : Nat} (wide : width ≤ 64) (power : d.natAbs = 2 ^ i) :
    BitVec.ofInt width (int64 ((if d < 0 then int64 (-d) else d) - 1)) =
      BitVec.ofInt width (2 ^ i - 1) := by
  have size : (d.natAbs : Int) = 2 ^ i := by exact_mod_cast power
  rw [ofInt_int64 wide, Words.ofInt_sub, Words.ofInt_sub, ← size]
  congr 1
  split
  · rw [ofInt_int64 wide]
    congr 1
    omega
  · congr 1
    omega

theorem expandPowerOf2Divide_divides {i : Nat} (numerOld : numer < next)
    (represents : mtype.Represents denom_val d) (power : d.natAbs = 2 ^ i) :
    ∃ ops, expandPowerOf2Divide result numer next denom_val mtype =
        .ok (some ops) ∧ Divides ops mtype result numer d := by
  have inside := exponent_lt represents power
  have positive := mtype.sizeReg_pos
  have wide := mtype.sizeReg_le
  unfold expandPowerOf2Divide
  rw [getPowerOf2_eq represents power inside]
  cases signed : mtype.isSigned with
  | false =>
      obtain ⟨nonnegative, -⟩ := MType.represents_unsigned signed represents
      have isPower : d = ((2 ^ i : Nat) : Int) := by omega
      refine ⟨_, emit_of_all (by simpa [Op.shiftInRange] using inside), ?_⟩
      intro machine n holds _
      rw [MType.holds_unsigned signed] at holds
      obtain ⟨rfl, small⟩ := holds
      have below : (machine.read 64 numer).toNat < 2 ^ mtype.sizeReg := by
        exact_mod_cast small
      refine ⟨_, rfl, ?_⟩
      rw [isPower]
      refine MType.holds_of_toNat signed below ?_
      simp (disch := omega) only [Machine.read_setFlags, Machine.read_write]
      rw [BitVec.toNat_setWidth_of_le wide, toNat_shiftValue_lright, toNat_read wide rfl below]
  | true =>
      obtain ⟨rfl, low, high⟩ := MType.represents_signed signed represents
      simp only [bind, Except.bind, not_true_eq_false, if_false]
      refine ⟨_, emit_of_all ?_, ?_⟩
      · split <;> simp [Op.shiftInRange, inside, positive]
      intro machine n holds apart
      rw [MType.holds_signed signed] at holds
      have lowNumerator : -2 ^ (mtype.sizeReg - 1) ≤ n := holds ▸ BitVec.le_toInt _
      have highNumerator : n < 2 ^ (mtype.sizeReg - 1) := holds ▸ BitVec.toInt_lt
      have numerator : machine.read mtype.sizeReg numer = BitVec.ofInt mtype.sizeReg n := by
        rw [← holds, BitVec.ofInt_toInt]
      have word := power_word inside lowNumerator highNumerator
      have mask := @ofInt_mask denom_val _ _ wide power
      obtain ⟨least, most⟩ := @tdiv_range (2 ^ (mtype.sizeReg - 1)) n denom_val
        lowNumerator highNumerator fun special => apart ⟨signed, special⟩
      have size : (denom_val.natAbs : Int) = 2 ^ i := by exact_mod_cast power
      rcases Int.lt_or_le denom_val 0 with negative | nonnegative
      · have isPower : denom_val = -2 ^ i := by omega
        simp only [if_pos negative] at mask ⊢
        simp only [List.cons_append, List.nil_append, Machine.exec_cons,
          Machine.exec_nil, Machine.step, Option.bind_some]
        refine ⟨_, rfl, ?_⟩
        rw [MType.holds_signed signed]
        simp (disch := omega) only [Machine.read_setFlags, Machine.read_write,
          Machine.read_write_of_ne, BitVec.setWidth_eq, mask, numerator, word]
        rw [← BitVec.ofInt_neg, ← Int.tdiv_neg, ← isPower]
        exact BitVec.toInt_ofInt_eq_self positive least most
      · have isPower : denom_val = 2 ^ i := by omega
        simp only [if_neg (Int.not_lt.mpr nonnegative)] at mask ⊢
        simp only [List.append_nil, Machine.exec_cons,
          Machine.exec_nil, Machine.step, Option.bind_some]
        refine ⟨_, rfl, ?_⟩
        rw [MType.holds_signed signed]
        simp (disch := omega) only [Machine.read_setFlags, Machine.read_write,
          Machine.read_write_of_ne, BitVec.setWidth_eq, mask, numerator, word]
        rw [← isPower]
        exact BitVec.toInt_ofInt_eq_self positive least most

end Expansion

end OpenUH.Cg
