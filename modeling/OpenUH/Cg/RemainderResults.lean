import OpenUH.Cg.RemainderQuotients

/-!
# Remainders and moduli, and the signs that 32 bits show

A remainder is wrong where a branch looks at the lower half of the numerator
only, and a modulus where the lower half of the remainder alone is tested.
-/

namespace OpenUH.Cg

open Foundation

variable {settings : RemainderSettings} {processor : Processor}
  {result src1 src2 next : Nat} {mtype : MType} {divisor : Divisor}
  {known : Option Int} {n d r : Int}

/-! ## Remainders -/

theorem Divisor.Is.represents {machine : Machine} {val : Int}
    (isDivisor : divisor.Is machine mtype d) (value : divisor.valueAtOp = some val) :
    mtype.Represents val d := by
  cases divisor with
  | literal literal =>
      cases value
      exact isDivisor
  | register tn known => exact isDivisor.2 val value

/-- The remainder by the TN of the numerator. -/
theorem remainder_same_word :
    ∃ after, processor.exec [.op (.ldc mtype.sizeReg result 0)] = some after ∧
      after.machine.Word mtype.sizeReg result 0 :=
  ⟨_, rfl, Function.update_self _ _ _⟩

/-- The remainder by a divisor that is not known, or no power of two. -/
theorem expandRem_word (old : src1 < next) (oldDivisor : divisor.Old result next) (nonzero : d ≠ 0)
    (apart : ¬(mtype.isSigned ∧ n = -2 ^ (mtype.sizeReg - 1) ∧ d = -1))
    (isDivisor : divisor.Is processor.machine mtype d)
    (holds : processor.machine.Holds mtype src1 n)
    (general : divisor.isTn src1 = true ∨
      ∀ val, divisor.valueAtOp = some val → isPowerOf2 val mtype = false) :
    ∃ instrs after,
      expandRem settings result src1 next divisor mtype = .ok [.line instrs] ∧
        SetsOnly instrs result next ∧ processor.exec instrs = some after ∧
        after.machine.Word mtype.sizeReg result (n.tmod d) := by
  have older : ∀ tn known, divisor = .register tn known → tn < next := by
    rintro tn known rfl
    exact oldDivisor.2
  have divided := @divisionInstruction_word settings processor result src1 next mtype n d
    divisor old older nonzero apart isDivisor holds
  obtain ⟨after, executed, word⟩ := divided
  unfold expandRem
  cases same : divisor.isTn src1 with
  | true =>
      rw [if_pos rfl]
      have equal : n = d := by
        cases divisor with
        | literal val => cases same
        | register tn known =>
            have place : tn = src1 := of_decide_eq_true same
            exact holds.unique (place ▸ isDivisor.1)
      rw [equal, Int.tmod_self]
      obtain ⟨zero, loaded, isZero⟩ := @remainder_same_word processor result mtype
      exact ⟨_, zero, rfl, by simp [Instr.targets, Op.targets], loaded, isZero⟩
  | false =>
      rw [if_neg Bool.false_ne_true]
      have noPower := general.resolve_left fun other => by
        rw [same] at other
        cases other
      cases value : divisor.valueAtOp with
      | none => exact ⟨_, after, rfl, divisionInstruction_setsOnly, executed, word⟩
      | some val =>
          have represents := isDivisor.represents value
          have notPower := noPower val value
          dsimp only
          rw [if_neg (by rw [notPower]; decide)]
          split
          case isFalse unchanged =>
            exact ⟨_, after, rfl, divisionInstruction_setsOnly, executed, word⟩
          case isTrue multiplied =>
            obtain ⟨outcome, computed, right⟩ := @remainderByConstant_word settings
              processor result src1 next mtype n d val divisor old older represents
              nonzero (fun i power => by
                have isPower := (isPowerOf2_iff represents).mpr ⟨i, power⟩
                rw [notPower] at isPower
                cases isPower) isDivisor holds
            rw [computed]
            cases outcome with
            | none => exact ⟨_, after, rfl, divisionInstruction_setsOnly, executed, word⟩
            | some instrs =>
                obtain ⟨only, last, ran, remainder⟩ := right instrs rfl
                exact ⟨instrs, last, rfl, only, ran, remainder⟩

/-- Code that leaves a number in a TN. -/
def Computes (code : Host (List Block)) (processor : Processor) (mtype : MType)
    (result : Nat) (value : Int) : Prop :=
  ∃ blocks after, code = .ok blocks ∧ processor.run blocks = some after ∧
    after.machine.Holds mtype result value

/-- Whether a remainder branches on the sign of its numerator. -/
def BranchesOnSign (settings : RemainderSettings) (src1 : Nat) (divisor : Divisor)
    (mtype : MType) : Prop :=
  divisor.isTn src1 = false ∧ mtype.isSigned = true ∧
    ∃ val, divisor.valueAtOp = some val ∧ isPowerOf2 val mtype = true ∧ 0 < val ∧
      (settings.divremOpt = true ∨ ¬(settings.useSetcc = true ∨ settings.isTarget32bit = true))

/-- The numerators whose remainder is right: where the code branches, its literal has
32 bits, and the lower half of the numerator shows the sign or the remainder is zero. -/
def RemainderIsRight (settings : RemainderSettings) (src1 : Nat) (divisor : Divisor)
    (mtype : MType) (n d : Int) : Prop :=
  BranchesOnSign settings src1 divisor mtype → d < 2 ^ 31 ∧ SignSeen mtype d n

/-- A line of operations that leaves the word of a number in range. -/
theorem computes_line {instrs : List Instr} {after : Processor} {value : Int}
    (executed : processor.exec instrs = some after)
    (word : after.machine.Word mtype.sizeReg result value) (inRange : mtype.InRange value) :
    Computes (.ok [.line instrs]) processor mtype result value :=
  ⟨_, after, rfl, Processor.run_singleton.trans executed, word.holds inRange⟩

/-- The remainder by a power of two. -/
theorem expandPowerOf2Rem_iff {val : Int} {i : Nat} (old : src1 < next)
    (represents : mtype.Represents val d) (power : d.natAbs = 2 ^ i)
    (holds : processor.machine.Holds mtype src1 n) :
    Computes (expandPowerOf2Rem settings result src1 next val mtype) processor mtype
        result (n.tmod d) ↔
      (mtype.isSigned = true → 0 < val →
        settings.divremOpt = true ∨ ¬(settings.useSetcc = true ∨ settings.isTarget32bit = true) →
        d < 2 ^ 31 ∧ SignSeen mtype d n) := by
  have inRange : mtype.InRange (n.tmod d) := holds.inRange.tmod
  have inside := exponent_lt represents power
  have exponent := getPowerOf2_eq represents power inside
  show Computes (getPowerOf2 val mtype >>= _) _ _ _ _ ↔ _
  rw [exponent]
  show Computes (if mtype.isSigned = true then _ else _) _ _ _ _ ↔ _
  by_cases signed : mtype.isSigned = true
  · rw [if_pos signed]
    have sequence : Computes (.ok [.line (powerRemSequence result src1 next val mtype)])
        processor mtype result (n.tmod d) := by
      obtain ⟨after, executed, word⟩ :=
        @powerRemSequence_word processor result src1 next mtype n d val i signed old
          represents power holds
      exact computes_line executed word inRange
    by_cases positive : 0 < val
    · have fast := @expandFastPowerOf2Rem_iff settings processor result src1 next mtype n d
        val i signed old represents positive power holds
      by_cases optimized : settings.divremOpt = true
      · rw [if_pos ⟨positive, optimized⟩]
        exact fast.trans ⟨fun works _ _ _ => works, fun works =>
          works signed positive (.inl optimized)⟩
      by_cases slow : settings.useSetcc = true ∨ settings.isTarget32bit = true
      · rw [if_neg fun both => optimized both.2, if_pos (slow.imp_right Or.inl)]
        exact iff_of_true sequence fun _ _ flags =>
          (flags.resolve_left optimized slow).elim
      · rw [if_neg fun both => optimized both.2, if_neg (by
          rintro (setcc | narrow | negative)
          · exact slow (.inl setcc)
          · exact slow (.inr narrow)
          · omega)]
        exact fast.trans ⟨fun works _ _ _ => works, fun works =>
          works signed positive (.inr slow)⟩
    · have nonzero : val ≠ 0 := by
        rintro rfl
        have size := MType.powerPattern_eq represents
        have := Nat.two_pow_pos i
        rw [← power, ← size] at this
        cases mtype <;> exact absurd this (by decide)
      rw [if_neg fun both => positive both.1, if_pos (.inr (.inr (by omega)))]
      exact iff_of_true sequence fun _ above => absurd above positive
  · rw [if_neg signed]
    refine iff_of_true ?_ fun isSigned => absurd isSigned signed
    have unsigned : mtype.isSigned = false := Bool.eq_false_iff.mpr signed
    obtain ⟨after, executed, word⟩ :=
      @expandBinaryAnd_word settings processor result src1 next mtype (powerMask i) old
    have size : (d.natAbs : Int) = 2 ^ i := by exact_mod_cast power
    have nonnegative := (MType.represents_unsigned unsigned represents).1
    have isPower : d = 2 ^ i := by omega
    have numerator := holds.inRange
    rw [MType.InRange, if_neg signed] at numerator
    refine computes_line executed ?_ inRange
    rw [Machine.Word, word, holds.word, ofInt_powerMask mtype.sizeReg_le,
      ofInt_and_mask inside.le, isPower, Int.tmod_eq_emod_of_nonneg numerator.1]

/-- The remainder is right exactly where the branch, if there is one, sees the sign. -/
theorem expandRem_iff (old : src1 < next) (oldDivisor : divisor.Old result next) (nonzero : d ≠ 0)
    (apart : ¬(mtype.isSigned ∧ n = -2 ^ (mtype.sizeReg - 1) ∧ d = -1))
    (isDivisor : divisor.Is processor.machine mtype d)
    (holds : processor.machine.Holds mtype src1 n) :
    Computes (expandRem settings result src1 next divisor mtype) processor mtype result
        (n.tmod d) ↔
      RemainderIsRight settings src1 divisor mtype n d := by
  have inRange : mtype.InRange (n.tmod d) := holds.inRange.tmod
  by_cases general : divisor.isTn src1 = true ∨
      ∀ val, divisor.valueAtOp = some val → isPowerOf2 val mtype = false
  · obtain ⟨instrs, after, emitted, -, executed, word⟩ := @expandRem_word settings
      processor result src1 next mtype divisor n d old oldDivisor nonzero apart
      isDivisor holds general
    rw [emitted]
    refine iff_of_true (computes_line executed word inRange) ?_
    rintro ⟨other, -, val, value, isPower, -⟩
    rcases general with same | none
    · rw [same] at other
      cases other
    · rw [none val value] at isPower
      cases isPower
  · rw [not_or] at general
    obtain ⟨other, noneFails⟩ := general
    obtain ⟨val, rest⟩ := not_forall.mp noneFails
    obtain ⟨value, isPower⟩ := Classical.not_imp.mp rest
    rw [Bool.not_eq_false] at isPower
    have different : divisor.isTn src1 = false := Bool.eq_false_iff.mpr other
    have represents := isDivisor.represents value
    obtain ⟨i, power⟩ := (isPowerOf2_iff represents).mp isPower
    have emitted : expandRem settings result src1 next divisor mtype =
        expandPowerOf2Rem settings result src1 next val mtype := by
      unfold expandRem
      rw [if_neg other, value]
      dsimp only
      rw [if_pos isPower]
    rw [emitted, @expandPowerOf2Rem_iff settings processor result src1 next mtype n d val i
      old represents power holds]
    constructor
    · rintro works ⟨-, signed, same, again, -, positive, flags⟩
      rw [value, Option.some_inj] at again
      exact works signed (again ▸ positive) flags
    · intro works signed positive flags
      exact works ⟨different, signed, val, value, isPower, positive, flags⟩

/-! ## Moduli -/

/-- The modulus corrects the remainder where it is not zero and the signs differ. -/
theorem fmod_eq_corrected :
    n.fmod d = n.tmod d +
      if ¬d ∣ n ∧ ¬(n < 0 ↔ d < 0) then d else 0 := by
  rw [Int.fmod_eq_emod, Int.tmod_eq_emod]
  by_cases divides : d ∣ n
  · rw [if_pos (.inr divides), if_pos (.inr divides), if_neg fun both => both.1 divides]
    omega
  · simp only [divides, or_false, not_false_eq_true, true_and]
    by_cases negative : n < 0
    · have notAbove : ¬0 ≤ n := by omega
      by_cases below : d < 0
      · have notPositive : ¬0 ≤ d := by omega
        simp only [negative, below, notAbove, notPositive, if_false, iff_self, not_true_eq_false]
        omega
      · have positive : 0 ≤ d := by omega
        simp only [negative, below, notAbove, positive, if_true, if_false, iff_false,
          not_true_eq_false, not_false_eq_true]
        omega
    · have above : 0 ≤ n := by omega
      by_cases below : d < 0
      · have notPositive : ¬0 ≤ d := by omega
        simp only [negative, below, above, notPositive, if_true, if_false, iff_true,
          not_false_eq_true]
        omega
      · have positive : 0 ≤ d := by omega
        simp only [negative, below, above, positive, if_true, if_false, iff_self, not_true_eq_false]
        omega

/-- The modulus is in the range of the divisor. -/
theorem MType.InRange.fmod (signed : mtype.isSigned = true) (nonzero : d ≠ 0)
    (inRange : mtype.InRange d) : mtype.InRange (n.fmod d) := by
  have range := inRange.signed signed
  rw [MType.InRange, if_pos signed]
  rcases Int.lt_or_gt_of_ne nonzero with below | above
  · have low := Int.fmod_nonneg_of_pos (-n) (show 0 < -d by omega)
    have high := Int.fmod_lt_of_pos (-n) (show 0 < -d by omega)
    rw [Int.neg_fmod_neg] at low high
    omega
  · have low := Int.fmod_nonneg_of_pos n above
    have high := Int.fmod_lt_of_pos n above
    omega

/-- The sign that the correction compares. -/
theorem msb_xor_words (signed : mtype.isSigned = true) (numerator : mtype.InRange n)
    (range : mtype.InRange d) :
    (BitVec.ofInt mtype.sizeReg n ^^^ BitVec.ofInt mtype.sizeReg d).msb = true ↔
      ¬(n < 0 ↔ d < 0) := by
  have sign : ∀ m, mtype.InRange m → ((BitVec.ofInt mtype.sizeReg m).msb = true ↔ m < 0) := by
    intro m inside
    obtain ⟨low, high⟩ := inside.signed signed
    rw [BitVec.msb_eq_toInt, BitVec.toInt_ofInt_eq_self mtype.sizeReg_pos low high,
      decide_eq_true_eq]
  rw [BitVec.msb_xor, ← sign n numerator, ← sign d range]
  cases (BitVec.ofInt mtype.sizeReg n).msb <;>
    cases (BitVec.ofInt mtype.sizeReg d).msb <;> decide

/-- What a test of 32 bits finds zero. -/
theorem read_eq_zero_iff (word : processor.machine.Word mtype.sizeReg result r) :
    processor.machine.read 32 result = 0 ↔ (2 : Int) ^ 32 ∣ r := by
  have narrow : 32 ≤ mtype.sizeReg := by
    cases mtype <;> decide
  have low : processor.machine.read 32 result = BitVec.ofInt 32 r := by
    rw [← @Machine.setWidth_read _ 32 result (by decide), Machine.read, word,
      BitVec.setWidth_eq, BitVec.setWidth_setWidth_of_le _ (by decide),
      Words.setWidth_ofInt narrow]
  rw [low]
  constructor
  · intro zero
    have natural := congrArg BitVec.toNat zero
    rw [BitVec.toNat_ofInt] at natural
    have bound := Int.emod_nonneg r (show (2 : Int) ^ 32 ≠ 0 by decide)
    refine Int.dvd_of_emod_eq_zero ?_
    have same : (r % 2 ^ 32).toNat = 0 := natural
    omega
  · intro divides
    refine BitVec.eq_of_toNat_eq ?_
    rw [BitVec.toNat_ofInt]
    have zero := Int.emod_eq_zero_of_dvd divides
    show (r % 2 ^ 32).toNat = 0
    omega

/-- The divisor where the signs differ, and zero where they do not. -/
theorem divisorOrZero_word (signed : mtype.isSigned = true)
    (oldDivisor : src2 < next) (oldResult : result < next)
    (holds : processor.machine.Holds mtype src1 n)
    (holdsDivisor : processor.machine.Holds mtype src2 d) :
    ∃ after, processor.exec
        [.xor mtype.sizeReg next src1 src2, .test mtype.sizeReg next next,
          .op (.ldc mtype.sizeReg (next + 1) 0), .op (.cmov .l (next + 1) src2)] =
        some after ∧
      after.machine.read mtype.sizeReg (next + 1) =
        BitVec.ofInt mtype.sizeReg (if ¬(n < 0 ↔ d < 0) then d else 0) ∧
      after.machine.tns result = processor.machine.tns result := by
  have wide := mtype.sizeReg_le
  have signs := msb_xor_words signed holds.inRange holdsDivisor.inRange
  have divisor := holdsDivisor.word
  have frame : ∀ after, processor.exec
      [.xor mtype.sizeReg next src1 src2, .test mtype.sizeReg next next,
        .op (.ldc mtype.sizeReg (next + 1) 0), .op (.cmov .l (next + 1) src2)] =
      some after → after.machine.tns result = processor.machine.tns result :=
    fun after executed => Processor.exec_frame executed
      (show SetsOnly _ next next by simp [Instr.targets, Op.targets])
      (Nat.ne_of_lt oldResult) oldResult
  rw [← holds.word, ← divisor] at signs
  simp only [Processor.exec_cons, Processor.exec_nil, Processor.step, Machine.step,
    Processor.put, Option.map_some, Option.bind_some, Machine.read_setFlags,
    Machine.read_write_self wide, BitVec.and_self, Machine.flags_write,
    Machine.flags_setFlags, Condition.holds, testFlags] at frame ⊢
  refine ⟨_, rfl, ?_, frame _ rfl⟩
  by_cases differ : n < 0 ↔ d < 0
  · have same := mt signs.mp (not_not_intro differ)
    rw [if_neg same, if_neg (not_not_intro differ), Machine.read_write_self wide]
  · rw [if_pos (signs.mpr differ), if_pos differ, Machine.read_write wide]
    simp (disch := omega) only [Machine.read_write_of_ne, Machine.read_setFlags,
      Machine.setWidth_read wide, divisor]

/-- A move where the lower half of a TN is not zero. -/
theorem moveUnlessZero_tns {src : Nat} :
    ∃ after, processor.exec [.test 32 result result, .cmovne result src] = some after ∧
      after.machine.tns result =
        if processor.machine.read 32 result = 0 then processor.machine.tns result
        else processor.machine.tns src := by
  have self : processor.machine.read 32 result &&& processor.machine.read 32 result =
      processor.machine.read 32 result := BitVec.and_self
  refine ⟨_, rfl, ?_⟩
  by_cases zero : processor.machine.read 32 result = 0
  · have tested := decide_eq_true (self.trans zero)
    rw [if_pos zero]
    dsimp only
    rw [if_pos tested]
    rfl
  · have tested := mt of_decide_eq_true fun same => zero (self.symm.trans same)
    rw [if_neg zero]
    dsimp only
    rw [if_neg tested]
    refine (Function.update_self _ _ _).trans ?_
    rw [BitVec.setWidth_eq]
    exact BitVec.setWidth_eq _

/-- The correction adds the divisor where the signs differ, unless the lower half of
the remainder is zero. -/
theorem modCorrection_word (signed : mtype.isSigned = true)
    (oldDivisor : src2 < next) (oldResult : result < next)
    (word : processor.machine.Word mtype.sizeReg result r)
    (holds : processor.machine.Holds mtype src1 n)
    (holdsDivisor : processor.machine.Holds mtype src2 d) :
    ∃ after, processor.exec (modCorrection result src1 next src2 mtype) = some after ∧
      after.machine.Word mtype.sizeReg result
        (if (2 : Int) ^ 32 ∣ r then r else r + if ¬(n < 0 ↔ d < 0) then d else 0) := by
  obtain ⟨middle, first, addend, kept⟩ := @divisorOrZero_word processor result src1 src2
    next mtype n d signed oldDivisor oldResult holds holdsDivisor
  have remainder : middle.machine.Word mtype.sizeReg result r := kept.trans word
  obtain ⟨added, second, sum, same⟩ : ∃ added : Processor,
      middle.exec [.op (.add mtype.sizeReg (next + 2) result (next + 1))] = some added ∧
        added.machine.Word mtype.sizeReg (next + 2) (r + if ¬(n < 0 ↔ d < 0) then d else 0) ∧
        added.machine.tns result = middle.machine.tns result := by
    refine ⟨_, rfl, (Function.update_self _ _ _).trans ?_, Function.update_of_ne (by omega) _ _⟩
    rw [remainder.read, addend, ← BitVec.ofInt_add]
  have remains : added.machine.Word mtype.sizeReg result r := same.trans remainder
  obtain ⟨after, third, moved⟩ := @moveUnlessZero_tns added result (next + 2)
  refine ⟨after, ?_, ?_⟩
  · show processor.exec ([_, _, _, _] ++ ([_] ++ [_, _])) = _
    rw [Processor.exec_append first, Processor.exec_append second]
    exact third
  · rw [Machine.Word, moved]
    by_cases zero : (2 : Int) ^ 32 ∣ r
    · rw [if_pos zero, if_pos ((read_eq_zero_iff remains).mpr zero)]
      exact remains
    · rw [if_neg zero, if_neg (mt (read_eq_zero_iff remains).mp zero)]
      exact sum

/-- The numerators whose modulus is right: the divisor is known to be a power of two,
or there is no remainder, or 32 bits show that there is one, or the signs agree. -/
def ModulusIsRight (known : Option Int) (mtype : MType) (n d : Int) : Prop :=
  mtype = .I8 → (∃ val, known = some val ∧ isPowerOf2 val mtype = true) ∨ d ∣ n ∨
    ¬(2 : Int) ^ 32 ∣ n.tmod d ∨ (n < 0 ↔ d < 0)

/-- The correction gives the modulus exactly where it does not take a remainder for
zero. -/
theorem corrected_eq_fmod_iff (nonzero : d ≠ 0) :
    (if (2 : Int) ^ 32 ∣ n.tmod d then n.tmod d
      else n.tmod d + if ¬(n < 0 ↔ d < 0) then d else 0) = n.fmod d ↔
      d ∣ n ∨ ¬(2 : Int) ^ 32 ∣ n.tmod d ∨ (n < 0 ↔ d < 0) := by
  rw [@fmod_eq_corrected n d]
  by_cases divides : d ∣ n
  · have zero : n.tmod d = 0 := Int.tmod_eq_zero_of_dvd divides
    rw [if_pos (zero ▸ Int.dvd_zero _), if_neg fun both => both.1 divides]
    exact iff_of_true (Int.add_zero _).symm (.inl divides)
  · by_cases hidden : (2 : Int) ^ 32 ∣ n.tmod d
    · rw [if_pos hidden]
      by_cases same : n < 0 ↔ d < 0
      · rw [if_neg fun both => both.2 same]
        exact iff_of_true (Int.add_zero _).symm (.inr (.inr same))
      · rw [if_pos ⟨divides, same⟩]
        refine iff_of_false (by omega) ?_
        rintro (other | shown | agree)
        · exact divides other
        · exact shown hidden
        · exact same agree
    · rw [if_neg hidden]
      refine iff_of_true ?_ (.inr (.inl hidden))
      by_cases same : n < 0 ↔ d < 0
      · rw [if_neg (not_not_intro same), if_neg fun both => both.2 same]
      · rw [if_pos same, if_pos ⟨divides, same⟩]

/-- A remainder that 32 bits do not show is that of a number of 64 bits. -/
theorem dvd_of_hidden (signed : mtype.isSigned = true) (narrow : mtype ≠ .I8)
    (inRange : mtype.InRange n) (hidden : (2 : Int) ^ 32 ∣ n.tmod d) : d ∣ n := by
  obtain ⟨low, high⟩ := (inRange.tmod (d := d)).signed signed
  have bits : mtype.sizeReg = 32 := by
    cases mtype with
    | I4 => rfl
    | I8 => exact absurd rfl narrow
    | U4 => rfl
    | U8 => cases signed
  rw [bits] at low high
  refine Int.dvd_of_tmod_eq_zero ?_
  omega

/-- The modulus is right exactly where the correction sees that there is a remainder. -/
theorem expandMod_iff (signed : mtype.isSigned = true) (old : src1 < next)
    (oldResult : result < next) (other : src1 ≠ result)
    (oldDivisor : src2 ≠ result ∧ src2 < next) (nonzero : d ≠ 0)
    (apart : ¬(mtype.isSigned ∧ n = -2 ^ (mtype.sizeReg - 1) ∧ d = -1))
    (isDivisor : (Divisor.register src2 known).Is processor.machine mtype d)
    (holds : processor.machine.Holds mtype src1 n) :
    Computes (expandMod settings result src1 next src2 known mtype) processor mtype
        result (n.fmod d) ↔
      ModulusIsRight known mtype n d := by
  have inRange : mtype.InRange (n.fmod d) := MType.InRange.fmod signed nonzero isDivisor.1.inRange
  by_cases power : ∃ val, known = some val ∧ isPowerOf2 val mtype = true
  · refine iff_of_true ?_ fun _ => .inl power
    obtain ⟨val, rfl, isPower⟩ := power
    have represents := isDivisor.2 val rfl
    obtain ⟨i, size⟩ := (isPowerOf2_iff represents).mp isPower
    obtain ⟨blocks, after, emitted, ran, word⟩ := @expandPowerOf2Mod_word settings
      processor result src1 next mtype n d val i signed old represents size holds
    refine ⟨blocks, after, ?_, ran, word.holds inRange⟩
    show (if isPowerOf2 val mtype = true then _ else _) = _
    rw [if_pos isPower]
    exact emitted
  · have general : ∀ val, known = some val → isPowerOf2 val mtype = false :=
      fun val value => Bool.eq_false_iff.mpr fun isPower => power ⟨val, value, isPower⟩
    obtain ⟨instrs, middle, emitted, only, executed, word⟩ := @expandRem_word settings
      processor result src1 (next + 3) mtype (.register src2 known) n d (by omega)
      ⟨oldDivisor.1, by omega⟩ nonzero apart isDivisor holds (.inr general)
    have emittedMod : expandMod settings result src1 next src2 known mtype =
        .ok ([.line instrs] ++ [.line (modCorrection result src1 next src2 mtype)]) := by
      unfold expandMod
      cases known with
      | none =>
          dsimp only
          rw [emitted]
          rfl
      | some val =>
          have notZero : val ≠ 0 := by
            rintro rfl
            have size := MType.powerPattern_eq (isDivisor.2 0 rfl)
            have zero : powerPattern 0 mtype = 0 := by
              cases mtype <;> decide
            omega
          dsimp only
          rw [if_neg (by rw [general val rfl]; decide), if_neg notZero, emitted]
          rfl
    have numerator : middle.machine.Holds mtype src1 n := by
      have same := Processor.exec_frame executed only other (show src1 < next + 3 by omega)
      unfold Machine.Holds Machine.read at holds ⊢
      rwa [same]
    have divisor : middle.machine.Holds mtype src2 d := (isDivisor.keep fun tn value same => by
        cases same
        exact Processor.exec_frame executed only oldDivisor.1 (show src2 < next + 3 by omega)).1
    obtain ⟨after, corrected, final⟩ := @modCorrection_word middle result src1 src2 next
      mtype n d (n.tmod d) signed oldDivisor.2 oldResult word numerator divisor
    have ran : processor.run
        ([.line instrs] ++ [.line (modCorrection result src1 next src2 mtype)]) =
        some after := by
      have first : processor.run [.line instrs] = some middle :=
        Processor.run_singleton.trans executed
      rw [Processor.run_append first, Processor.run_singleton]
      exact corrected
    have value := corrected_eq_fmod_iff (n := n) nonzero
    have corrects : (if (2 : Int) ^ 32 ∣ n.tmod d then n.tmod d
        else n.tmod d + if ¬(n < 0 ↔ d < 0) then d else 0) = n.fmod d ↔
        ModulusIsRight known mtype n d := by
      rw [value]
      constructor
      · exact fun right _ => .inr right
      · intro right
        by_cases wide : mtype = .I8
        · exact (right wide).resolve_left power
        · by_cases hidden : (2 : Int) ^ 32 ∣ n.tmod d
          · exact .inl (dvd_of_hidden signed wide holds.inRange hidden)
          · exact .inr (.inl hidden)
    rw [emittedMod, ← corrects]
    constructor
    · rintro ⟨blocks, last, same, reached, right⟩
      cases same
      rw [ran, Option.some_inj] at reached
      by_cases hidden : (2 : Int) ^ 32 ∣ n.tmod d
      · rw [if_pos hidden] at final ⊢
        exact (final.holds holds.inRange.tmod).unique (reached ▸ right)
      · exact value.mpr (.inr (.inl hidden))
    · intro same
      exact ⟨_, after, rfl, ran, (same ▸ final).holds inRange⟩

/-! ## Remainders and moduli -/

/-- The operands of a remainder, in TNs apart from its result, and their numbers. -/
structure Operands (processor : Processor) (mtype : MType) (result src1 next : Nat)
    (divisor : Divisor) (n d : Int) : Prop where
  old : src1 < next
  oldResult : result < next
  other : src1 ≠ result
  oldDivisor : divisor.Old result next
  numerator : processor.machine.Holds mtype src1 n
  isDivisor : divisor.Is processor.machine mtype d
  nonzero : d ≠ 0
  apart : ¬(mtype.isSigned ∧ n = -2 ^ (mtype.sizeReg - 1) ∧ d = -1)

/-- Flags of the 64-bit target. -/
def ordinarySettings : RemainderSettings where
  idivbyconst := true
  cvrtIntDivToMult := true
  isTarget32bit := false
  divremOpt := false
  useSetcc := true
  multToAddShift := true
  optSpace := false

/-- The TNs of a numerator and of a divisor. -/
def operandTns (n d : Int) : Processor where
  machine := {
    tns := fun tn => if tn = 0 then BitVec.ofInt 64 n else BitVec.ofInt 64 d
    flags := none }
  zero := none

end OpenUH.Cg
