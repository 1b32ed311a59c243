import OpenUH.Cg.RemainderOps

/-!
# The expansion of a remainder and of a modulus

`Expand_Rem` masks for a power of two, multiplies the quotient back for other
constants, and divides otherwise.  `Expand_Mod` masks, or corrects a remainder
where its signs differ.
-/

namespace OpenUH.Cg

/-! ## Operands -/

/-- The flags of the compiler; `CG_divrem_opt`, `CG_use_setcc`,
`CGEXP_cvrt_int_mult_to_add_shift` and `OPT_Space` besides those of divisions. -/
structure RemainderSettings extends Settings where
  divremOpt : Bool
  useSetcc : Bool
  multToAddShift : Bool
  optSpace : Bool

/-- A divisor: a literal, or a TN, whose value `TN_Value_At_Op` may know. -/
inductive Divisor where
  | literal (val : Int)
  | register (tn : Nat) (known : Option Int)
  deriving DecidableEq

/-- `TN_Value_At_Op`. -/
def Divisor.valueAtOp : Divisor → Option Int
  | .literal val => some val
  | .register _ known => known

/-- Whether the divisor is a TN. -/
def Divisor.isTn (src1 : Nat) : Divisor → Bool
  | .literal _ => false
  | .register tn _ => tn = src1

section Expand

variable (settings : RemainderSettings) (result src1 next : Nat)

/-- `Expand_Immediate_Into_Register`, if the divisor is a literal. -/
def Divisor.intoRegister (divisor : Divisor) (mtype : MType) : List Instr × Nat :=
  match divisor with
  | .literal val =>
      ([.op (expandImmediate settings.toSettings mtype.sizeReg next val)], next)
  | .register tn _ => ([], tn)

/-- `Expand_Binary_And` with a literal. -/
def expandBinaryAnd (val : Int) (mtype : MType) : List Instr :=
  let width := mtype.sizeReg
  if val = -1 ∨ ¬mtype.isDouble ∧ Int.bmod val (2 ^ 32) = -1 then
    [.op (.copy width result src1)]
  else if val = 0xff then
    [.movz 8 result src1]
  else if val = 0xffff then
    [.movz 16 result src1]
  else if ¬mtype.isDouble ∨ -2 ^ 31 ≤ val ∧ val < 2 ^ 31 then
    [.andi width result src1 val]
  else
    [.op (expandImmediate settings.toSettings 64 next val),
      .op (.and 64 result src1 next)]

/-! ## Products -/

/-- `Can_Do_Fast_Multiply`. -/
def canDoFastMultiply (mtype : MType) (val : Int) : Bool :=
  if settings.optSpace then
    false
  else if val = 0 ∨ val = 1 ∨ val = -1 then
    true
  else
    let absolute := if val < 0 then int64 (-val) else val
    let numOps :=
      if absolute ∈ [3, 5, 7, 9, 15, 17, 31] then 2
      else if absolute ∈ [6, 10, 11, 12, 13, 14, 18, 19, 20, 21, 23, 24, 25, 27, 28,
        29, 30] then 3
      else 4
    (if val < 0 then numOps + 1 else numOps) ≤ if mtype.isDouble then 3 else 2

/-- The `switch` of `Expand_Constant_Multiply`. -/
def multiplySequence (width result x tmp tmp1 : Nat) : Int → Option (List Instr)
  | 3 => some [.leax width result x x 2]
  | 5 => some [.leax width result x x 4]
  | 6 => some [.leax width tmp x x 2, .op (.add width result tmp tmp)]
  | 7 => some [.shli width tmp x 3, .op (.sub width result tmp x)]
  | 9 => some [.leax width result x x 8]
  | 10 => some [.leax width tmp x x 4, .op (.add width result tmp tmp)]
  | 11 => some [.leax width tmp x x 8, .op (.add width tmp1 x x),
      .op (.add width result tmp1 tmp)]
  | 12 => some [.leax width tmp x x 2, .shli width result tmp 2]
  | 13 => some [.leax width tmp x x 2, .shli width tmp1 x 4,
      .op (.sub width result tmp1 tmp)]
  | 14 => some [.leax width tmp x x 1, .shli width tmp1 x 4,
      .op (.sub width result tmp1 tmp)]
  | 15 => some [.shli width tmp x 4, .op (.sub width result tmp x)]
  | 17 => some [.shli width tmp x 4, .op (.add width result tmp x)]
  | 18 => some [.leax width tmp x x 8, .op (.add width result tmp tmp)]
  | 19 => some [.leax width tmp1 x x 2, .shli width tmp x 4,
      .op (.add width result tmp tmp1)]
  | 20 => some [.leax width tmp x x 4, .shli width result tmp 2]
  | 21 => some [.leax width tmp1 x x 4, .shli width tmp x 4,
      .op (.add width result tmp tmp1)]
  | 23 => some [.leax width tmp x x 8, .shli width tmp1 x 5,
      .op (.sub width result tmp1 tmp)]
  | 24 => some [.leax width tmp x x 2, .shli width result tmp 3]
  | 25 => some [.leax width tmp1 x x 8, .shli width tmp x 4,
      .op (.add width result tmp tmp1)]
  | 27 => some [.leax width tmp x x 4, .shli width tmp1 x 5,
      .op (.sub width result tmp1 tmp)]
  | 28 => some [.leaxx width tmp x 4, .shli width tmp1 x 5,
      .op (.sub width result tmp1 tmp)]
  | 29 => some [.leax width tmp x x 2, .shli width tmp1 x 5,
      .op (.sub width result tmp1 tmp)]
  | 30 => some [.leax width tmp x x 1, .shli width tmp1 x 5,
      .op (.sub width result tmp1 tmp)]
  | 31 => some [.shli width tmp x 5, .op (.sub width result tmp x)]
  | _ => none

/-- `Expand_Constant_Multiply` after its special cases: its operations, and whether
they are all that is needed. -/
def multiplyByCases (constant : Int) (mtype : MType) : List Instr × Bool :=
  let width := mtype.sizeReg
  let sequence (x : Nat) (c : Int) := multiplySequence width result x (next + 1) (next + 2) c
  if constant < 0 then
    (.op (.neg width next src1) :: (sequence next (int64 (-constant))).getD [],
      (sequence next (int64 (-constant))).isSome)
  else
    ((sequence src1 constant).getD [], (sequence src1 constant).isSome)

/-- `Expand_Constant_Multiply`. -/
def expandConstantMultiply (constant : Int) (mtype : MType) : List Instr × Bool :=
  if constant = 0 then
    ([.op (.ldc 64 result 0)], true)
  else if constant = 1 then
    ([.op (.copy 64 result src1)], true)
  else if constant = -1 then
    ([.op (.neg mtype.sizeReg result src1)], true)
  else
    multiplyByCases result src1 next constant mtype

/-- The last part of `Expand_Multiply`. -/
def multiplyRegister (divisor : Divisor) (mtype : MType) : List Instr :=
  let immediate := divisor.intoRegister settings next mtype
  immediate.1 ++
    [if mtype.isDouble then .op (.imul64 result src1 immediate.2)
      else .imul32 result src1 immediate.2]

/-- `Expand_Multiply`. -/
def expandMultiply (divisor : Divisor) (mtype : MType) : List Instr :=
  match divisor with
  | .literal val =>
      if 0 < val ∧ val.toNat &&& (val.toNat - 1) = 0 then
        if val = 2 then [.op (.add mtype.sizeReg result src1 src1)]
        else [.shli mtype.sizeReg result src1 (Nat.log2 val.toNat)]
      else if settings.multToAddShift ∧ canDoFastMultiply settings mtype val then
        let fast := expandConstantMultiply result src1 next val mtype
        if fast.2 then fast.1
        else fast.1 ++ multiplyRegister settings result src1 (next + 3) divisor mtype
      else
        multiplyRegister settings result src1 (next + 3) divisor mtype
  | .register _ _ =>
      multiplyRegister settings result src1 (next + 3) divisor mtype

/-! ## Powers of two -/

/-- The operations for a divisor that is a power of two and a numerator of either
sign. -/
def powerRemSequence (src2_val : Int) (mtype : MType) : List Instr :=
  let width := mtype.sizeReg
  let t1 := next
  let absdvsr := if src2_val < 0 then int64 (-src2_val) else src2_val
  let t2 := next + 1
  let t3 := next + 2
  let t4 := next + 3
  let t5 := next + 4
  [.op (.shift width .aright t1 src1 (width - 1)),
    .op (.ldc width t2 (int64 (absdvsr - 1))),
    .op (.and width t3 t1 t2),
    .op (.add width t4 t3 src1),
    .op (.and width t5 t4 t2),
    .op (.sub width result t5 t3)]

/-- `Expand_Fast_Power_Of_2_Rem`. -/
def expandFastPowerOf2Rem (src2_val : Int) (mtype : MType) : Host (List Block) :=
  if -2 ^ 31 ≤ src2_val ∧ src2_val < 2 ^ 31 then
    .ok [.branch src1 (powerRemSequence result src1 next src2_val mtype)
      (expandBinaryAnd settings result src1 next (src2_val - 1) mtype)]
  else
    .error .assertion

/-- `(1LL << n) - 1`. -/
def powerMask (n : Nat) : Int := int64 (int64 (2 ^ n) - 1)

/-- `Expand_Power_Of_2_Rem`. -/
def expandPowerOf2Rem (src2_val : Int) (mtype : MType) : Host (List Block) := do
  let n ← getPowerOf2 src2_val mtype
  if mtype.isSigned then
    if src2_val > 0 ∧ settings.divremOpt then
      expandFastPowerOf2Rem settings result src1 next src2_val mtype
    else if settings.useSetcc ∨ settings.isTarget32bit ∨ src2_val < 0 then
      .ok [.line (powerRemSequence result src1 next src2_val mtype)]
    else
      expandFastPowerOf2Rem settings result src1 next src2_val mtype
  else
    .ok [.line (expandBinaryAnd settings result src1 next (powerMask n) mtype)]

/-- `Expand_Power_Of_2_Mod`. -/
def expandPowerOf2Mod (src2_val : Int) (mtype : MType) : Host (List Block) := do
  let absval := if src2_val < 0 then int64 (-src2_val) else src2_val
  let n ← getPowerOf2 absval mtype
  if mtype.isSigned ∧ src2_val < 0 then
    .ok [.line ([.op (.neg mtype.sizeReg next src1)] ++
      expandBinaryAnd settings (next + 1) next (next + 2) (powerMask n) mtype ++
      [.op (.neg mtype.sizeReg result (next + 1))])]
  else
    .ok [.line (expandBinaryAnd settings result src1 next (powerMask n) mtype)]

/-! ## Remainders -/

/-- The division instruction, with the dividend extended. -/
def divisionInstruction (divisor : Divisor) (mtype : MType) : List Instr :=
  let width := mtype.sizeReg
  let immediate := divisor.intoRegister settings next mtype
  immediate.1 ++
    if mtype.isSigned then
      [.extend width (next + 2) (next + 1) src1,
        .idiv width (next + 3) result (next + 2) (next + 1) immediate.2]
    else
      [.op (.ldc 32 (next + 1) 0),
        .div width (next + 3) result src1 (next + 1) immediate.2]

/-- The quotient by a constant multiplied back and subtracted, if there is an
expansion of the quotient. -/
def remainderByConstant (src2_val : Int) (divisor : Divisor) (mtype : MType) :
    Host (Option (List Instr)) := do
  let quotient ← expandIntegerDivideByConstant settings.toSettings next src1
    (next + 8) src2_val mtype
  return quotient.map fun ops =>
    ops.map .op ++
      expandMultiply settings (next + 1) next (next + 2) divisor mtype ++
      [.op (.sub mtype.sizeReg result src1 (next + 1))]

/-- `Expand_Rem`. -/
def expandRem (divisor : Divisor) (mtype : MType) : Host (List Block) :=
  if divisor.isTn src1 then
    .ok [.line [.op (.ldc mtype.sizeReg result 0)]]
  else
    match divisor.valueAtOp with
    | some src2_val =>
        if isPowerOf2 src2_val mtype then
          expandPowerOf2Rem settings result src1 next src2_val mtype
        else if settings.cvrtIntDivToMult ∧ src2_val ≠ 0 then do
          let sequence ← remainderByConstant settings result src1 next src2_val
            divisor mtype
          return [.line (sequence.getD
            (divisionInstruction settings result src1 next divisor mtype))]
        else
          .ok [.line (divisionInstruction settings result src1 next divisor mtype)]
    | none =>
        .ok [.line (divisionInstruction settings result src1 next divisor mtype)]

/-! ## Moduli -/

/-- The correction of a remainder where the signs differ. -/
def modCorrection (src2 : Nat) (mtype : MType) : List Instr :=
  let width := mtype.sizeReg
  let src1_xor_src2 := next
  let divisor_or_zero := next + 1
  let remainder_plus_divisor := next + 2
  [.xor width src1_xor_src2 src1 src2,
    .test width src1_xor_src2 src1_xor_src2,
    .op (.ldc width divisor_or_zero 0),
    .op (.cmov .l divisor_or_zero src2),
    .op (.add width remainder_plus_divisor result divisor_or_zero),
    .test 32 result result,
    .cmovne result remainder_plus_divisor]

/-- `Expand_Mod`; its divisor is a TN. -/
def expandMod (src2 : Nat) (known : Option Int) (mtype : MType) : Host (List Block) :=
  match known with
  | some src2_val =>
      if isPowerOf2 src2_val mtype then
        expandPowerOf2Mod settings result src1 next src2_val mtype
      else if src2_val = 0 then
        .error .assertion
      else do
        let remainder ← expandRem settings result src1 (next + 3)
          (.register src2 known) mtype
        return remainder ++ [.line (modCorrection result src1 next src2 mtype)]
  | none => do
      let remainder ← expandRem settings result src1 (next + 3)
        (.register src2 known) mtype
      return remainder ++ [.line (modCorrection result src1 next src2 mtype)]

end Expand

end OpenUH.Cg
