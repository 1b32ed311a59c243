import OpenUH.Cg.PseudoDivision

/-!
# Divisions by constants are exact

The expansion does not fail for any divisor but zero, whatever the settings
and the target, and where it gives a sequence the sequence leaves the
truncated quotient of every numerator.
-/

namespace OpenUH.Cg

open Foundation

variable {settings : Settings} {result numer next : Nat} {mtype : MType}
  {denom_val d : Int}

/-! ## Divisors without a multiplication -/

theorem MType.represents_one (represents : mtype.Represents 1 d) : d = 1 := by
  have size := MType.powerPattern_eq represents
  have one : powerPattern 1 mtype = 1 := by
    cases mtype <;> decide
  rw [one] at size
  cases signed : mtype.isSigned with
  | true => exact (MType.represents_signed signed represents).1.symm
  | false =>
      obtain ⟨nonnegative, -⟩ := MType.represents_unsigned signed represents
      omega

theorem copy_divides : Divides [.copy mtype.sizeReg result numer] mtype result
    numer 1 := by
  intro machine n holds _
  have wide := mtype.sizeReg_le
  refine ⟨_, rfl, ?_⟩
  rw [Int.tdiv_one]
  cases signed : mtype.isSigned with
  | true =>
      rw [MType.holds_signed signed] at holds ⊢
      rw [Machine.read_write_self wide, holds]
  | false =>
      rw [MType.holds_unsigned signed] at holds ⊢
      obtain ⟨rfl, small⟩ := holds
      refine ⟨?_, small⟩
      rw [Machine.read_write le_rfl, BitVec.toNat_setWidth_of_le wide,
        toNat_read wide rfl (by exact_mod_cast small)]

theorem neg_divides (signed : mtype.isSigned = true) :
    Divides [.neg mtype.sizeReg result numer] mtype result numer (-1) := by
  intro machine n holds apart
  refine ⟨_, rfl, ?_⟩
  rw [MType.holds_signed signed] at holds ⊢
  obtain ⟨least, most⟩ := @tdiv_range (2 ^ (mtype.sizeReg - 1)) n (-1)
    (holds ▸ BitVec.le_toInt _) (holds ▸ BitVec.toInt_lt)
    fun special => apart ⟨signed, special⟩
  have word : -machine.read mtype.sizeReg numer = BitVec.ofInt mtype.sizeReg (n.tdiv (-1)) := by
    rw [Int.tdiv_neg, Int.tdiv_one, BitVec.ofInt_neg, ← holds, BitVec.ofInt_toInt]
  rw [Machine.read_setFlags, Machine.read_write_self mtype.sizeReg_le, word]
  exact BitVec.toInt_ofInt_eq_self mtype.sizeReg_pos least most

/-! ## The algorithms of 32 bits -/

theorem signedSequence_inRange {multiplier : Multiplier} (inRange : multiplier.s < 32) :
    (signedSequence settings result numer next denom_val multiplier).all
      Op.shiftInRange = true := by
  unfold signedSequence
  split
  · simp only [List.all_append, List.all_cons, shiftInRange_expandImmediate]
    split <;> simp [Op.shiftInRange, inRange]
  · split
    · simp only [List.all_append, List.all_cons, shiftInRange_expandImmediate]
      split <;> split <;> simp [Op.shiftInRange, inRange]
    · simp only [List.all_append, List.all_cons, shiftInRange_expandImmediate]
      split <;> split <;> simp [Op.shiftInRange, inRange]

theorem unsignedSequence_inRange {multiplier : Multiplier} (inRange : multiplier.s < 32) :
    (unsignedSequence settings result numer next multiplier).all Op.shiftInRange = true := by
  unfold unsignedSequence
  split
  · simp only [List.all_cons, shiftInRange_expandImmediate]
    simp [Op.shiftInRange, inRange]
  · simp only [List.all_cons, shiftInRange_expandImmediate]
    simp [Op.shiftInRange, inRange]

theorem compareSequence_inRange :
    (compareSequence settings result numer next denom_val).all Op.shiftInRange = true := by
  unfold compareSequence
  simp only [List.all_cons, shiftInRange_expandImmediate]
  rfl

/-- Signed divisions of 32 bits. -/
theorem signed_divides (numerOld : numer < next) (resultOld : result < next)
    (signed : mtype.isSigned = true) (narrow : mtype.isDouble = false)
    (represents : mtype.Represents denom_val d) (nonzero : d ≠ 0)
    (noPower : ∀ i, d.natAbs ≠ 2 ^ i) :
    ∃ multiplier, signedMultiplier denom_val = .ok multiplier ∧
      multiplier.s < 32 ∧
      Divides (signedSequence settings result numer next denom_val multiplier)
        mtype result numer d := by
  have large := two_lt_of_noPower nonzero noPower
  have bits : mtype.sizeReg = 32 := by
    rw [MType.sizeReg, narrow]
    rfl
  obtain ⟨rfl, low, high⟩ := MType.represents_signed signed represents
  rw [bits] at low high
  have half := noPower 31
  obtain ⟨multiplier, e, computed, exact⟩ := signedMultiplier_spec rfl (by omega) (by omega) noPower
  refine ⟨multiplier, computed, exact.inRange, ?_⟩
  intro machine n holds _
  rw [MType.holds_signed signed, bits] at holds
  obtain ⟨after, executed, quotient⟩ :=
    signedSequence_divides numerOld holds resultOld exact (by omega) (Int.natAbs_eq denom_val)
  refine ⟨after, executed, ?_⟩
  rw [MType.holds_signed signed, bits]
  exact quotient

/-- Unsigned divisions of 32 bits. -/
theorem unsigned_divides (numerOld : numer < next)
    (unsigned : mtype.isSigned = false) (narrow : mtype.isDouble = false)
    (represents : mtype.Represents denom_val d) (nonzero : d ≠ 0)
    (noPower : ∀ i, d.natAbs ≠ 2 ^ i) :
    if uint32 (uint64 denom_val) < 0x80000000 then
      ∃ multiplier, unsignedMultiplier denom_val = .ok multiplier ∧
        multiplier.s < 32 ∧
        Divides (unsignedSequence settings result numer next multiplier) mtype result numer d
    else
      Divides (compareSequence settings result numer next denom_val)
        mtype result numer d := by
  have isU4 : mtype = .U4 := by
    cases mtype <;> first | rfl | exact absurd unsigned (by decide) |
      exact absurd narrow (by decide)
  subst isU4
  have pattern := MType.uint32_eq rfl represents
  obtain ⟨nonnegative, high⟩ := MType.represents_unsigned unsigned represents
  have natural : d = (d.natAbs : Int) := by omega
  split
  · rename_i small
    obtain ⟨multiplier, computed, exact⟩ :=
      unsignedMultiplier_spec pattern (by omega) (by omega) noPower
    refine ⟨multiplier, computed, exact.inRange, ?_⟩
    intro machine n holds _
    rw [MType.holds_unsigned unsigned] at holds
    obtain ⟨rfl, below⟩ := holds
    have numerator : (machine.read 64 numer).toNat < 2 ^ 32 := by
      exact_mod_cast below
    obtain ⟨after, executed, quotient⟩ := unsignedSequence_divides numerOld exact rfl numerator
    refine ⟨after, executed, ?_⟩
    rw [natural]
    exact MType.holds_of_toNat unsigned numerator quotient
  · rename_i large
    intro machine n holds _
    rw [MType.holds_unsigned unsigned] at holds
    obtain ⟨rfl, below⟩ := holds
    have numerator : (machine.read 64 numer).toNat < 2 ^ 32 := by
      exact_mod_cast below
    obtain ⟨after, executed, quotient⟩ :=
      compareSequence_divides numerOld pattern (by omega) rfl numerator
    refine ⟨after, executed, ?_⟩
    rw [natural]
    exact MType.holds_of_toNat unsigned numerator quotient

/-! ## All divisions -/

/-- The sequence of each case of the expansion divides. -/
theorem expansion_divides (numerOld : numer < next)
    (resultOld : result < next) (represents : mtype.Represents denom_val d) (nonzero : d ≠ 0) :
    ∃ outcome,
      expandIntegerDivideByConstant settings result numer next denom_val mtype = .ok outcome ∧
      ∀ ops, outcome = some ops → Divides ops mtype result numer d := by
  unfold expandIntegerDivideByConstant
  split
  · rename_i one
    subst one
    refine ⟨_, emit_of_all rfl, fun ops given => ?_⟩
    cases given
    rw [MType.represents_one represents]
    exact copy_divides
  split
  · rename_i negated
    obtain ⟨signed, rfl⟩ := negated
    refine ⟨_, emit_of_all rfl, fun ops given => ?_⟩
    cases given
    rw [← (MType.represents_signed signed represents).1]
    exact neg_divides signed
  split
  · rename_i isPower
    obtain ⟨i, power⟩ := (isPowerOf2_iff represents).mp isPower
    obtain ⟨ops, computed, divides⟩ := expandPowerOf2Divide_divides numerOld represents power
    exact ⟨_, computed, fun others given => Option.some.inj given ▸ divides⟩
  rename_i notPower
  have noPower : ∀ i, d.natAbs ≠ 2 ^ i := fun i power =>
    notPower ((isPowerOf2_iff represents).mpr ⟨i, power⟩)
  split
  · exact ⟨none, rfl, fun ops impossible => nomatch impossible⟩
  cases signed : mtype.isSigned with
  | true =>
      split
      · rename_i narrow
        obtain ⟨multiplier, computed, inRange, divides⟩ :=
          signed_divides numerOld resultOld signed (by simpa using narrow.1)
            represents nonzero noPower
        rw [if_pos rfl, computed]
        exact ⟨_, emit_of_all (signedSequence_inRange inRange),
          fun others given => Option.some.inj given ▸ divides⟩
      · rw [if_pos rfl]
        exact signedPseudo_divides numerOld resultOld signed represents nonzero noPower
  | false =>
      split
      · rename_i narrow
        have divides := @unsigned_divides settings result numer next _ _ _
          numerOld signed (by simpa using narrow.1) represents nonzero noPower
        rw [if_neg Bool.false_ne_true]
        split at divides
        · rename_i small
          obtain ⟨multiplier, computed, inRange, divides⟩ := divides
          rw [if_pos small, computed]
          exact ⟨_, emit_of_all (unsignedSequence_inRange inRange),
            fun others given => Option.some.inj given ▸ divides⟩
        · rename_i large
          rw [if_neg large]
          exact ⟨_, emit_of_all compareSequence_inRange,
            fun others given => Option.some.inj given ▸ divides⟩
      · rw [if_neg Bool.false_ne_true]
        exact unsignedPseudo_divides numerOld signed represents nonzero noPower

example : (signedMultiplier 3).toOption = some { m := 0x55555556, s := 0, a := false } := by
  decide

end OpenUH.Cg
