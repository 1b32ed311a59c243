import OpenUH.Cg.RemainderProducts
import OpenUH.Foundation.Fallible

/-!
# Remainders from quotients

The operations of a quotient set new TNs only, so that the numerator and the
divisor are still there for the product and the difference.  The division
instruction gives the remainder itself.
-/

namespace OpenUH.Cg

open Foundation

variable {settings : RemainderSettings} {processor : Processor}
  {result src1 next : Nat} {mtype : MType} {n d val : Int}

/-! ## The TNs of a quotient -/

theorem targets_expandImmediate {settings : Settings} {width dest : Nat} :
    (expandImmediate settings width dest val).targets = [dest] := by
  unfold expandImmediate
  split
  · rfl
  split
  · rfl
  split <;> rfl

theorem eq_of_emit {ops others : List Op} (emitted : emit ops = .ok (some others)) :
    others = ops := by
  unfold emit at emitted
  split at emitted
  · cases emitted
    rfl
  · cases emitted

variable {numer : Nat}

theorem signedSequence_setsOnly {settings : Settings} {multiplier : Multiplier} :
    SetsOnly ((signedSequence settings result numer next val multiplier).map .op)
      result next := by
  unfold signedSequence
  split
  · simp only [List.map_append, List.map_cons, List.map_nil, SetsOnly.append,
      SetsOnly.cons, Instr.targets, targets_expandImmediate]
    split <;> simp [Instr.targets, Op.targets]
  split
  · simp only [List.map_append, List.map_cons, List.map_nil, SetsOnly.append,
      SetsOnly.cons, Instr.targets, targets_expandImmediate]
    split <;> split <;> simp [Instr.targets, Op.targets]
  · simp only [List.map_append, List.map_cons, List.map_nil, SetsOnly.append,
      SetsOnly.cons, Instr.targets, targets_expandImmediate]
    split <;> split <;> simp [Instr.targets, Op.targets]

theorem unsignedSequence_setsOnly {settings : Settings} {multiplier : Multiplier} :
    SetsOnly ((unsignedSequence settings result numer next multiplier).map .op)
      result next := by
  unfold unsignedSequence
  split
  · simp only [List.map_cons, List.map_nil, SetsOnly.cons, Instr.targets, targets_expandImmediate]
    simp [Op.targets]
  · simp only [List.map_cons, List.map_nil, SetsOnly.cons, Instr.targets, targets_expandImmediate]
    simp [Op.targets]

theorem compareSequence_setsOnly {settings : Settings} :
    SetsOnly ((compareSequence settings result numer next val).map .op)
      result next := by
  unfold compareSequence
  simp only [List.map_cons, List.map_nil, SetsOnly.cons, Instr.targets, targets_expandImmediate]
  simp [Op.targets]

theorem signedPseudo_setsOnly {settings : Settings} {ops : List Op}
    (given : signedPseudo settings result numer next val mtype = .ok (some ops)) :
    SetsOnly (ops.map .op) result next := by
  unfold signedPseudo at given
  dsimp only at given
  generalize determinePseudoInverse _ _ = pair at given
  obtain ⟨d, n⟩ := pair
  dsimp only at given
  by_cases wide : n > (if mtype.isDouble = true then 63 else 31)
  · rw [if_pos wide] at given
    cases given
  · rw [if_neg wide] at given
    simp only [apply_ite Prod.fst, apply_ite Prod.snd] at given
    rw [eq_of_emit given]
    simp only [List.map_append, List.map_cons, List.map_nil, SetsOnly.append,
      SetsOnly.cons, Instr.targets, targets_expandImmediate]
    refine ⟨⟨⟨?_, ?_⟩, ?_⟩, ?_⟩
    · simp [Op.targets]
    · split <;> simp [Instr.targets, Op.targets]
    · repeat' split
      all_goals simp [Instr.targets, Op.targets]
    · simp [Op.targets]

theorem unsignedPseudo_setsOnly {settings : Settings} {ops : List Op}
    (given : unsignedPseudo settings result numer next val mtype = .ok (some ops)) :
    SetsOnly (ops.map .op) result next := by
  unfold unsignedPseudo at given
  dsimp only at given
  generalize determinePseudoInverse _ _ = pair at given
  obtain ⟨d, n⟩ := pair
  dsimp only at given
  generalize (if uint64 val % 2 = 1 then (if mtype.isDouble = true then 64 else 32)
    else (if mtype.isDouble = true then 63 else 31)) = precision at given
  by_cases wide : n > precision
  · rw [if_pos wide] at given
    cases given
  · rw [if_neg wide] at given
    rw [eq_of_emit given]
    simp only [List.map_append, List.map_cons, List.map_nil, SetsOnly.append,
      SetsOnly.cons, Instr.targets, targets_expandImmediate]
    refine ⟨⟨?_, ?_⟩, ?_⟩
    · split <;> simp [Instr.targets, Op.targets]
    · simp [Op.targets]
    · split <;> simp [Instr.targets, Op.targets]

/-- A quotient by a constant sets its result and new TNs. -/
theorem quotient_setsOnly {settings : Settings} {ops : List Op}
    (given : expandIntegerDivideByConstant settings result numer next val mtype = .ok (some ops)) :
    SetsOnly (ops.map .op) result next := by
  unfold expandIntegerDivideByConstant at given
  split at given
  · rw [eq_of_emit given]
    simp [Instr.targets, Op.targets]
  split at given
  · rw [eq_of_emit given]
    simp [Instr.targets, Op.targets]
  split at given
  · unfold expandPowerOf2Divide at given
    obtain ⟨i, -, given⟩ := Fallible.bind_eq_ok.mp given
    split at given
    · rw [eq_of_emit given]
      simp [Instr.targets, Op.targets]
    · rw [eq_of_emit given]
      split <;> simp [Instr.targets, Op.targets]
  split at given
  · cases given
  split at given
  · split at given
    · obtain ⟨multiplier, -, given⟩ := Fallible.bind_eq_ok.mp given
      rw [eq_of_emit given]
      exact signedSequence_setsOnly
    split at given
    · obtain ⟨multiplier, -, given⟩ := Fallible.bind_eq_ok.mp given
      rw [eq_of_emit given]
      exact unsignedSequence_setsOnly
    · rw [eq_of_emit given]
      exact compareSequence_setsOnly
  split at given
  · exact signedPseudo_setsOnly given
  · exact unsignedPseudo_setsOnly given

/-! ## Remainders by constants -/

/-- The quotient multiplied back, and subtracted. -/
theorem remainderByConstant_word {divisor : Divisor} (old : src1 < next)
    (oldDivisor : ∀ tn known, divisor = .register tn known → tn < next)
    (represents : mtype.Represents val d) (nonzero : d ≠ 0) (noPower : ∀ i, d.natAbs ≠ 2 ^ i)
    (isDivisor : divisor.Is processor.machine mtype d)
    (holds : processor.machine.Holds mtype src1 n) :
    ∃ outcome, remainderByConstant settings result src1 next val divisor mtype =
        .ok outcome ∧
      ∀ instrs, outcome = some instrs →
        SetsOnly instrs result next ∧
        ∃ after, processor.exec instrs = some after ∧
          after.machine.Word mtype.sizeReg result (n.tmod d) := by
  have wide := mtype.sizeReg_le
  obtain ⟨outcome, computed, divides⟩ := @expansion_divides settings.toSettings next
    src1 (next + 8) mtype val d (by omega) (by omega) represents nonzero
  unfold remainderByConstant
  rw [computed]
  refine ⟨_, rfl, fun instrs given => ?_⟩
  obtain ⟨ops, rfl, rfl⟩ := Option.map_eq_some_iff.mp given
  have only := quotient_setsOnly computed
  constructor
  · rw [SetsOnly.append, SetsOnly.append]
    refine ⟨⟨fun instr member tn target => ?_, fun instr member tn target => ?_⟩, ?_⟩
    · have := only instr member tn target
      omega
    · have := expandMultiply_setsOnly instr member tn target
      omega
    · simp [Instr.targets, Op.targets]
  · obtain ⟨quotient, divided, holdsQuotient⟩ := divides ops rfl processor.machine n
      holds fun special => noPower 0 (by rw [special.2.2]; rfl)
    obtain ⟨zero, first⟩ := Processor.exec_ops divided
    have kept : ∀ tn, tn < next → quotient.tns tn = processor.machine.tns tn :=
      fun tn older => Processor.exec_frame first only (Nat.ne_of_lt older) (by omega)
    have isKept : divisor.Is quotient mtype d := isDivisor.keep fun tn known same =>
      kept tn (oldDivisor tn known same)
    have oldProduct : divisor.Old (next + 1) (next + 2) := by
      cases divisor with
      | literal val => exact trivial
      | register tn known =>
          have := oldDivisor tn known rfl
          exact ⟨by omega, by omega⟩
    obtain ⟨product, second, word⟩ := @expandMultiply_word settings
      { machine := quotient, zero := zero } (next + 1) next (next + 2) mtype d
      (n.tdiv d) divisor (by omega) (by omega) oldProduct noPower holdsQuotient.word
      isKept
    have numerator : product.machine.read mtype.sizeReg src1 = BitVec.ofInt mtype.sizeReg n := by
      rw [← holds.word, Machine.read, Machine.read, Processor.exec_frame second
        expandMultiply_setsOnly (by omega) (by omega)]
      exact congrArg _ (kept src1 old)
    refine ⟨_, (Processor.exec_append ((Processor.exec_append first).trans second)).trans
      rfl, (Function.update_self _ _ _).trans ?_⟩
    rw [numerator, word, ← Words.ofInt_sub, Int.mul_comm, ← Int.tmod_def]

/-! ## Division instructions -/

/-- A quotient that fits has a word, and so has its remainder. -/
theorem signedDivision_eq {low high divisor : BitVec mtype.sizeReg}
    (dividend : high.toInt * 2 ^ mtype.sizeReg + low.toNat = n)
    (isDivisor : divisor.toInt = d) (nonzero : d ≠ 0) (least : -2 ^ (mtype.sizeReg - 1) ≤ n.tdiv d)
    (most : n.tdiv d < 2 ^ (mtype.sizeReg - 1)) :
    signedDivision low high divisor =
      some (BitVec.ofInt mtype.sizeReg (n.tdiv d), BitVec.ofInt mtype.sizeReg (n.tmod d)) := by
  unfold signedDivision
  rw [dividend, isDivisor, if_neg]
  rintro (zero | small | large)
  · rw [zero] at isDivisor
    exact nonzero (isDivisor.symm.trans BitVec.toInt_zero)
  · omega
  · omega

/-- The sign of a word, and the word, are its number. -/
theorem signed_dividend {width : Nat} {x : BitVec width} (positive : 0 < width) :
    (if x.msb then BitVec.allOnes width else 0).toInt * 2 ^ width + x.toNat = x.toInt := by
  have number := @BitVec.toInt_eq_msb_cond width x
  cases sign : x.msb with
  | true =>
      rw [sign, if_pos rfl] at number
      rw [number, if_pos rfl, BitVec.toInt_allOnes, if_pos positive]
      push_cast
      ring
  | false =>
      rw [sign, if_neg Bool.false_ne_true] at number
      rw [number, if_neg Bool.false_ne_true]
      show (BitVec.ofNat width 0).toInt * 2 ^ width + _ = _
      rw [BitVec.toInt_zero, Int.zero_mul, Int.zero_add]

/-- The quotient of natural numbers has a word, and so has its remainder. -/
theorem unsignedDivision_eq {low high divisor : BitVec mtype.sizeReg} {x y : Nat}
    (isHigh : high = 0) (isLow : low.toNat = x) (isDivisor : divisor.toNat = y) (nonzero : y ≠ 0) :
    unsignedDivision low high divisor =
      some (BitVec.ofNat mtype.sizeReg (x / y), BitVec.ofNat mtype.sizeReg (x % y)) := by
  have dividend : high.toNat * 2 ^ mtype.sizeReg + low.toNat = x := by
    rw [isHigh, isLow]
    show (BitVec.ofNat mtype.sizeReg 0).toNat * 2 ^ mtype.sizeReg + x = x
    rw [BitVec.toNat_zero, Nat.zero_mul, Nat.zero_add]
  have bound : x < 2 ^ mtype.sizeReg := isLow ▸ low.isLt
  unfold unsignedDivision
  rw [dividend, isDivisor, if_neg]
  rintro (zero | large)
  · rw [zero] at isDivisor
    exact nonzero (isDivisor.symm.trans BitVec.toNat_zero)
  · have := Nat.div_le_self x y
    omega

theorem divisionInstruction_setsOnly {divisor : Divisor} :
    SetsOnly (divisionInstruction settings result src1 next divisor mtype) result
      next := by
  unfold divisionInstruction
  rw [SetsOnly.append]
  refine ⟨Divisor.intoRegister_setsOnly le_rfl, ?_⟩
  split <;> simp [Instr.targets, Op.targets]

/-- The remainder of the division instruction. -/
theorem divisionInstruction_word {divisor : Divisor} (old : src1 < next)
    (oldDivisor : ∀ tn known, divisor = .register tn known → tn < next) (nonzero : d ≠ 0)
    (apart : ¬(mtype.isSigned ∧ n = -2 ^ (mtype.sizeReg - 1) ∧ d = -1))
    (isDivisor : divisor.Is processor.machine mtype d)
    (holds : processor.machine.Holds mtype src1 n) :
    ∃ after, processor.exec
        (divisionInstruction settings result src1 next divisor mtype) = some after ∧
      after.machine.Word mtype.sizeReg result (n.tmod d) := by
  have wide := mtype.sizeReg_le
  obtain ⟨middle, first, immediate⟩ :=
    @Divisor.intoRegister_word settings processor next mtype d divisor isDivisor
  have kept : middle.machine.read mtype.sizeReg src1 = BitVec.ofInt mtype.sizeReg n := by
    rw [← holds.word, Machine.read, Machine.read, Processor.exec_frame first
      (@Divisor.intoRegister_setsOnly settings next next mtype divisor next le_rfl)
      (Nat.ne_of_lt old) old]
  have place : (divisor.intoRegister settings next mtype).2 ≤ next := by
    cases divisor with
    | literal val => exact le_rfl
    | register tn known => exact (oldDivisor tn known rfl).le
  have divisorRange : mtype.InRange d := isDivisor.inRange
  have dividendRange : mtype.InRange n := holds.inRange
  show ∃ after, processor.exec ((divisor.intoRegister settings next mtype).1 ++ _) = _ ∧ _
  rw [Processor.exec_append first]
  generalize (divisor.intoRegister settings next mtype).2 = src2 at immediate place ⊢
  cases signed : mtype.isSigned with
  | true =>
      obtain ⟨low, high⟩ := dividendRange.signed signed
      obtain ⟨least, most⟩ := tdiv_range low high fun special => apart ⟨signed, special⟩
      obtain ⟨divisorLow, divisorHigh⟩ := divisorRange.signed signed
      have divided := @signedDivision_eq mtype n d (BitVec.ofInt mtype.sizeReg n)
        (if (BitVec.ofInt mtype.sizeReg n).msb then BitVec.allOnes mtype.sizeReg else 0)
        (BitVec.ofInt mtype.sizeReg d)
        ((signed_dividend mtype.sizeReg_pos).trans
          (BitVec.toInt_ofInt_eq_self mtype.sizeReg_pos low high))
        (BitVec.toInt_ofInt_eq_self mtype.sizeReg_pos divisorLow divisorHigh)
        nonzero least most
      rw [if_pos rfl]
      simp only [Processor.exec_cons, Processor.exec_nil, Processor.step]
      simp (disch := omega) only [Option.bind_some, Machine.read_write_self wide,
        Machine.read_write_of_ne, kept, immediate, divided, Option.map_some]
      exact ⟨_, rfl, Function.update_self _ _ _⟩
  | false =>
      rw [MType.InRange, signed, if_neg Bool.false_ne_true] at dividendRange divisorRange
      obtain ⟨x, rfl⟩ : ∃ x : Nat, n = x := Int.eq_ofNat_of_zero_le dividendRange.1
      obtain ⟨y, rfl⟩ : ∃ y : Nat, d = y := Int.eq_ofNat_of_zero_le divisorRange.1
      have small : x < 2 ^ mtype.sizeReg := by exact_mod_cast dividendRange.2
      have smallDivisor : y < 2 ^ mtype.sizeReg := by exact_mod_cast divisorRange.2
      have divided := @unsignedDivision_eq mtype (BitVec.ofInt mtype.sizeReg x) 0
        (BitVec.ofInt mtype.sizeReg y) x y rfl
        (by rw [BitVec.ofInt_natCast, BitVec.toNat_ofNat, Nat.mod_eq_of_lt small])
        (by rw [BitVec.ofInt_natCast, BitVec.toNat_ofNat, Nat.mod_eq_of_lt smallDivisor])
        (by exact_mod_cast nonzero)
      have cleared : (middle.machine.write 32 (next + 1) (BitVec.ofInt 32 0)).read
          mtype.sizeReg (next + 1) = 0 := by
        rw [Machine.read_write wide]
        exact BitVec.setWidth_zero mtype.sizeReg 32
      rw [if_neg Bool.false_ne_true]
      simp only [Processor.exec_cons, Processor.exec_nil, Processor.step, Machine.step,
        Option.map_some]
      simp (disch := omega) only [Option.bind_some, cleared,
        Machine.read_write_of_ne, kept, immediate, divided, Option.map_some]
      refine ⟨_, rfl, (Function.update_self _ _ _).trans ?_⟩
      rw [← Int.ofNat_tmod, BitVec.ofInt_natCast]

end OpenUH.Cg
