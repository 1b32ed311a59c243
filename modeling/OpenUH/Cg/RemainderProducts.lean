import OpenUH.Cg.RemainderPowers

/-!
# Products with a divisor

The expansion of a multiplication by a constant is a sequence of additions and
shifts, or a multiplication; each of them leaves the product of the words.
-/

namespace OpenUH.Cg

open Foundation

variable {settings : RemainderSettings} {processor : Processor}
  {result src1 next width : Nat} {mtype : MType} {n d val q : Int}

/-! ## Words -/

theorem shiftLeft_ofInt {amount : Nat} :
    BitVec.ofInt width q <<< amount = BitVec.ofInt width (q * 2 ^ amount) := by
  have scale : BitVec.ofInt width (2 ^ amount) = BitVec.ofNat width (2 ^ amount) := by
    rw [← BitVec.ofInt_natCast]
    push_cast
    rfl
  rw [BitVec.ofInt_mul, scale]
  refine BitVec.eq_of_toNat_eq ?_
  rw [BitVec.toNat_shiftLeft, BitVec.toNat_mul, BitVec.toNat_ofNat,
    Nat.shiftLeft_eq, Nat.mul_mod_mod]

theorem ofInt_mul_ofNat {scale : Nat} :
    BitVec.ofInt width q * BitVec.ofNat width scale = BitVec.ofInt width (q * scale) := by
  rw [BitVec.ofInt_mul, BitVec.ofInt_natCast]

/-! ## Additions and shifts -/

/-- Each sequence leaves the product with its constant. -/
theorem multiplySequence_word {x tmp tmp1 : Nat} {c : Int} {instrs : List Instr}
    (given : multiplySequence width result x tmp tmp1 c = some instrs)
    (wide : width ≤ 64) (first : x ≠ tmp) (second : x ≠ tmp1) (apart : tmp ≠ tmp1)
    (word : processor.machine.read width x = BitVec.ofInt width q) :
    ∃ after, processor.exec instrs = some after ∧
      after.machine.read width result = BitVec.ofInt width (q * c) := by
  unfold multiplySequence at given
  split at given
  case h_25 => cases given
  all_goals
    cases given
    simp only [Processor.exec_cons, Processor.exec_nil, Processor.step, Machine.step,
      Processor.put, Option.map_some, Option.bind_some]
    refine ⟨_, rfl, ?_⟩
    simp (disch := first | exact wide | exact first | exact second | exact apart |
      exact apart.symm) only [Machine.read_setFlags, Machine.read_write_self,
      Machine.read_write_of_ne, word]
    simp only [ofInt_mul_ofNat, shiftLeft_ofInt, ← BitVec.ofInt_add, ← Words.ofInt_sub]
    congr 1
    push_cast
    ring

theorem multiplySequence_setsOnly {x : Nat} {c : Int} {instrs : List Instr}
    (given : multiplySequence width result x (next + 1) (next + 2) c = some instrs) :
    SetsOnly instrs result next := by
  unfold multiplySequence at given
  split at given
  case h_25 => cases given
  all_goals
    cases given
    simp [Instr.targets, Op.targets]

/-- A sequence, or nothing at all. -/
theorem multiplySequence_runs {x : Nat} {c : Int} (wide : width ≤ 64)
    (other : x ≠ next + 1 ∧ x ≠ next + 2)
    (word : processor.machine.read width x = BitVec.ofInt width q) :
    ∃ after, processor.exec
        ((multiplySequence width result x (next + 1) (next + 2) c).getD []) = some after ∧
      ((multiplySequence width result x (next + 1) (next + 2) c).isSome = true →
        after.machine.read width result = BitVec.ofInt width (q * c)) := by
  cases sequence : multiplySequence width result x (next + 1) (next + 2) c with
  | none => exact ⟨processor, rfl, nofun⟩
  | some instrs =>
      obtain ⟨after, executed, product⟩ := multiplySequence_word sequence wide
        other.1 other.2 (by omega) word
      exact ⟨after, executed, fun _ => product⟩

/-- What `Expand_Constant_Multiply` emits runs, and leaves the product where it is
all that is needed. -/
theorem expandConstantMultiply_word (old : src1 < next)
    (word : processor.machine.read mtype.sizeReg src1 = BitVec.ofInt mtype.sizeReg q) :
    ∃ after, processor.exec (expandConstantMultiply result src1 next val mtype).1 =
        some after ∧
      ((expandConstantMultiply result src1 next val mtype).2 = true →
        after.machine.read mtype.sizeReg result = BitVec.ofInt mtype.sizeReg (q * val)) := by
  have wide := mtype.sizeReg_le
  unfold expandConstantMultiply
  by_cases zero : val = 0
  · rw [if_pos zero]
    refine ⟨_, rfl, fun _ => ?_⟩
    rw [Machine.read_write wide, zero, Int.mul_zero]
    exact Words.setWidth_ofInt wide
  by_cases one : val = 1
  · rw [if_neg zero, if_pos one]
    refine ⟨_, rfl, fun _ => ?_⟩
    rw [Machine.read_write wide, Machine.setWidth_read wide, one, Int.mul_one]
    exact word
  by_cases minusOne : val = -1
  · rw [if_neg zero, if_neg one, if_pos minusOne]
    refine ⟨_, rfl, fun _ => ?_⟩
    rw [Machine.read_setFlags, Machine.read_write_self wide, word, ← BitVec.ofInt_neg, minusOne]
    congr 1
    ring
  rw [if_neg zero, if_neg one, if_neg minusOne]
  unfold multiplyByCases
  by_cases negative : val < 0
  · rw [if_pos negative]
    obtain ⟨middle, first, negated⟩ := @exec_neg processor next src1 mtype
    have start : middle.machine.read mtype.sizeReg next = BitVec.ofInt mtype.sizeReg (-q) := by
      rw [Machine.read, negated, BitVec.setWidth_setWidth_of_le _ wide,
        BitVec.setWidth_eq, word, BitVec.ofInt_neg]
    obtain ⟨after, second, product⟩ := @multiplySequence_runs middle result next _ (-q)
      next (int64 (-val)) wide (by omega) start
    refine ⟨after, (Processor.exec_append first).trans second, fun done => ?_⟩
    rw [product done, BitVec.ofInt_mul, ofInt_int64 wide, ← BitVec.ofInt_mul]
    congr 1
    ring
  · rw [if_neg negative]
    exact multiplySequence_runs wide (by omega) word

theorem expandConstantMultiply_setsOnly :
    SetsOnly (expandConstantMultiply result src1 next val mtype).1 result next := by
  have sequences : ∀ x c, SetsOnly ((multiplySequence mtype.sizeReg result x (next + 1)
      (next + 2) c).getD []) result next := by
    intro x c
    cases sequence : multiplySequence mtype.sizeReg result x (next + 1) (next + 2) c with
    | none => exact SetsOnly.nil
    | some instrs => exact multiplySequence_setsOnly sequence
  unfold expandConstantMultiply
  split
  · simp [Instr.targets, Op.targets]
  split
  · simp [Instr.targets, Op.targets]
  split
  · simp [Instr.targets, Op.targets]
  unfold multiplyByCases
  split
  · exact SetsOnly.cons.mpr ⟨by simp [Instr.targets, Op.targets], sequences _ _⟩
  · exact sequences _ _

/-! ## Multiplications -/

/-- The number that a divisor stands for. -/
def Divisor.Is (divisor : Divisor) (machine : Machine) (mtype : MType) (d : Int) : Prop :=
  match divisor with
  | .literal val => mtype.Represents val d
  | .register tn known => machine.Holds mtype tn d ∧
      ∀ val, known = some val → mtype.Represents val d

/-- The TN of a divisor is not a new one, nor the result. -/
def Divisor.Old (divisor : Divisor) (result next : Nat) : Prop :=
  match divisor with
  | .literal _ => True
  | .register tn _ => tn ≠ result ∧ tn < next

variable {divisor : Divisor}

/-- The operations that set other TNs keep the divisor. -/
theorem Divisor.Is.keep {machine after : Machine} (isDivisor : divisor.Is machine mtype d)
    (same : ∀ tn known, divisor = .register tn known → after.tns tn = machine.tns tn) :
    divisor.Is after mtype d := by
  cases divisor with
  | literal val => exact isDivisor
  | register tn known =>
      refine ⟨?_, isDivisor.2⟩
      have holds := isDivisor.1
      unfold Machine.Holds Machine.read at holds ⊢
      rwa [same tn known rfl]

/-- A divisor has the range of its type. -/
theorem Divisor.Is.inRange {machine : Machine}
    (isDivisor : divisor.Is machine mtype d) : mtype.InRange d := by
  cases divisor with
  | literal val => exact MType.Represents.inRange isDivisor
  | register tn known => exact isDivisor.1.inRange

/-- The word of a divisor, in a register. -/
theorem Divisor.intoRegister_word (isDivisor : divisor.Is processor.machine mtype d) :
    ∃ after, processor.exec (divisor.intoRegister settings next mtype).1 =
        some after ∧
      after.machine.read mtype.sizeReg (divisor.intoRegister settings next mtype).2 =
        BitVec.ofInt mtype.sizeReg d := by
  cases divisor with
  | literal val =>
      obtain ⟨other, word, stepped, low⟩ := @step_expandImmediate settings.toSettings
        processor.machine mtype.sizeReg next val mtype.sizeReg_eq
      refine ⟨_, Processor.exec_op stepped, ?_⟩
      exact (Machine.read_write mtype.sizeReg_le).trans (low.trans isDivisor.word)
  | register tn known => exact ⟨processor, rfl, isDivisor.1.word⟩

theorem Divisor.intoRegister_setsOnly {bound : Nat} (least : bound ≤ next) :
    SetsOnly (divisor.intoRegister settings next mtype).1 result bound := by
  cases divisor with
  | literal val =>
      rw [Divisor.intoRegister, SetsOnly.cons]
      refine ⟨fun tn member => .inr ?_, SetsOnly.nil⟩
      have target : tn = next := by
        unfold expandImmediate at member
        split at member
        · exact List.mem_singleton.mp member
        split at member
        · exact List.mem_singleton.mp member
        split at member
        · exact List.mem_singleton.mp member
        · exact List.mem_singleton.mp member
      omega
  | register tn known => exact SetsOnly.nil

/-- A multiplication by a register. -/
theorem multiplyRegister_word (old : src1 < next)
    (word : processor.machine.read mtype.sizeReg src1 = BitVec.ofInt mtype.sizeReg q)
    (isDivisor : divisor.Is processor.machine mtype d) :
    ∃ after, processor.exec
        (multiplyRegister settings result src1 next divisor mtype) = some after ∧
      after.machine.read mtype.sizeReg result = BitVec.ofInt mtype.sizeReg (q * d) := by
  obtain ⟨middle, first, immediate⟩ :=
    @Divisor.intoRegister_word settings processor next mtype d divisor isDivisor
  have kept : middle.machine.read mtype.sizeReg src1 = BitVec.ofInt mtype.sizeReg q := by
    rw [← word, Machine.read, Machine.read, Processor.exec_frame first
      (Divisor.intoRegister_setsOnly le_rfl) (Nat.ne_of_lt old) old]
  show ∃ after, processor.exec ((divisor.intoRegister settings next mtype).1 ++ _) = _ ∧ _
  rw [Processor.exec_append first]
  cases double : mtype.isDouble with
  | true =>
      have bits : mtype.sizeReg = 64 := if_pos double
      rw [bits] at kept immediate ⊢
      refine ⟨_, rfl, ?_⟩
      rw [Machine.read_setFlags, Machine.read_write_self le_rfl, kept, immediate, BitVec.ofInt_mul]
  | false =>
      have bits : mtype.sizeReg = 32 := if_neg (by rw [double]; decide)
      rw [bits] at kept immediate ⊢
      refine ⟨_, rfl, ?_⟩
      rw [Processor.put, Machine.read_setFlags, Machine.read_write_self (by decide),
        kept, immediate, BitVec.ofInt_mul]

theorem multiplyRegister_setsOnly {bound : Nat} (least : bound ≤ next) :
    SetsOnly (multiplyRegister settings result src1 next divisor mtype) result
      bound := by
  unfold multiplyRegister
  rw [SetsOnly.append]
  refine ⟨Divisor.intoRegister_setsOnly least, ?_⟩
  split <;> simp [Instr.targets, Op.targets]

/-- A positive literal that is a power of two stands for one. -/
theorem power_of_literal (represents : mtype.Represents val d)
    (power : 0 < val ∧ val.toNat &&& (val.toNat - 1) = 0) :
    ∃ i, d.natAbs = 2 ^ i := by
  have same : val.toNat = d.natAbs := by
    cases mtype with
    | I4 | I8 =>
        obtain ⟨rfl, -⟩ := represents
        omega
    | U4 =>
        obtain ⟨hostValue, low, high⟩ := represents
        rcases hostValue with rfl | rfl
        · omega
        · rw [Int.bmod_eq_emod] at power ⊢
          split at power <;> rename_i sign
          · omega
          · rw [if_neg sign]
            omega
    | U8 =>
        obtain ⟨rfl, low, high⟩ := represents
        rw [Int.bmod_eq_emod] at power ⊢
        split at power <;> rename_i sign
        · omega
        · rw [if_neg sign]
          omega
  have nonzero : val.toNat ≠ 0 := by omega
  rw [← same]
  exact Nat.ne_zero_and_sub_one_eq_zero_iff_isPowerOfTwo.mp ⟨nonzero, power.2⟩

/-- The product with a divisor that is no power of two. -/
theorem expandMultiply_word (old : src1 < next)
    (other : src1 ≠ result) (oldDivisor : divisor.Old result next) (noPower : ∀ i, d.natAbs ≠ 2 ^ i)
    (word : processor.machine.read mtype.sizeReg src1 = BitVec.ofInt mtype.sizeReg q)
    (isDivisor : divisor.Is processor.machine mtype d) :
    ∃ after, processor.exec
        (expandMultiply settings result src1 next divisor mtype) = some after ∧
      after.machine.read mtype.sizeReg result = BitVec.ofInt mtype.sizeReg (q * d) := by
  unfold expandMultiply
  cases divisor with
  | register tn known =>
      exact multiplyRegister_word (by omega) word isDivisor
  | literal val =>
      have notPower : ¬(0 < val ∧ val.toNat &&& (val.toNat - 1) = 0) := fun power =>
        (power_of_literal isDivisor power).elim noPower
      show ∃ after, processor.exec (if 0 < val ∧ val.toNat &&& (val.toNat - 1) = 0
        then _ else _) = _ ∧ _
      rw [if_neg notPower]
      split
      case isFalse slow => exact multiplyRegister_word (by omega) word isDivisor
      case isTrue fast =>
        obtain ⟨middle, first, product⟩ :=
          @expandConstantMultiply_word processor result src1 next mtype val q old word
        show ∃ after, processor.exec (if (expandConstantMultiply result src1 next val
          mtype).2 = true then _ else _) = _ ∧ _
        split
        case isTrue done =>
          refine ⟨middle, first, (product done).trans ?_⟩
          rw [BitVec.ofInt_mul, MType.Represents.word isDivisor, ← BitVec.ofInt_mul]
        case isFalse more =>
          rw [Processor.exec_append first]
          refine multiplyRegister_word (by omega) ?_ isDivisor
          rw [← word, Machine.read, Machine.read, Processor.exec_frame first
            expandConstantMultiply_setsOnly other old]

theorem expandMultiply_setsOnly :
    SetsOnly (expandMultiply settings result src1 next divisor mtype) result next := by
  unfold expandMultiply
  cases divisor with
  | register tn known => exact multiplyRegister_setsOnly (by omega)
  | literal val =>
      dsimp only
      split
      · split <;> simp [Instr.targets, Op.targets]
      split
      · split
        · exact expandConstantMultiply_setsOnly
        · exact SetsOnly.append.mpr ⟨expandConstantMultiply_setsOnly,
            multiplyRegister_setsOnly (by omega)⟩
      · exact multiplyRegister_setsOnly (by omega)

end OpenUH.Cg
