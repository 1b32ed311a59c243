import OpenUH.Cg.TargetOps

/-!
# The expansion of a division by a constant

`Expand_Integer_Divide_By_Constant` replaces an integer division by shifts, or
by a multiplication with a scaled reciprocal of the divisor.  The reciprocals
are computed with host integers of 32 and 64 bits.
-/

namespace OpenUH.Cg

/-! ## Host arithmetic -/

/-- The integer types of a division. -/
inductive MType where
  | I4
  | I8
  | U4
  | U8
  deriving DecidableEq

namespace MType

/-- `MTYPE_is_signed`. -/
def isSigned : MType → Bool
  | .I4 | .I8 => true
  | .U4 | .U8 => false

/-- `MTYPE_is_size_double`. -/
def isDouble : MType → Bool
  | .I4 | .U4 => false
  | .I8 | .U8 => true

/-- `MTYPE_size_reg`. -/
def sizeReg (mtype : MType) : Nat := if mtype.isDouble then 64 else 32

end MType

/-- What goes wrong in the compiler itself. -/
inductive Fault where
  | divisionByZero
  | shiftCount
  | assertion
  deriving DecidableEq

/-- Host computations. -/
abbrev Host := Except Fault

/-- A value as a `UINT64`. -/
def uint64 (value : Int) : Nat := (value % 2 ^ 64).toNat

/-- A value as a `UINT`. -/
def uint32 (value : Nat) : Nat := value % 2 ^ 32

/-- A value as an `INT64`. -/
def int64 (value : Int) : Int := Int.bmod value (2 ^ 64)

/-- A quotient of `UINT64`. -/
def divide (dividend divisor : Nat) : Host Nat :=
  if divisor = 0 then .error .divisionByZero else .ok (dividend / divisor)

/-- A remainder of `UINT64`. -/
def modulo (dividend divisor : Nat) : Host Nat :=
  if divisor = 0 then .error .divisionByZero else .ok (dividend % divisor)

/-- `((UINT64)(1)) << count`. -/
def shiftOne (count : Nat) : Host Nat :=
  if count < 64 then .ok (2 ^ count) else .error .shiftCount

/-! ## Powers of two -/

/-- The pattern of the value that the tests for powers of two look at. -/
def powerPattern (val : Int) (mtype : MType) : Nat :=
  let val := if mtype.isSigned ∧ val < 0 then -val else val
  if mtype = .U4 then uint32 (uint64 val) else uint64 val

/-- `Is_Power_Of_2`. -/
def isPowerOf2 (val : Int) (mtype : MType) : Bool :=
  let pattern := powerPattern val mtype
  pattern ≠ 0 ∧ pattern &&& (pattern - 1) = 0

/-- `Get_Power_Of_2`. -/
def getPowerOf2 (val : Int) (mtype : MType) : Host Nat :=
  match (List.range mtype.sizeReg).find? fun i =>
      powerPattern val mtype = 2 ^ i with
  | some i => .ok i
  | none => .error .assertion

/-! ## Multipliers -/

/-- The loop of `log2_uint`. -/
def log2Loop : Nat → Nat → Nat → Nat
  | 0, _, t => t
  | fuel + 1, i, t => if i = 0 then t else log2Loop fuel (i / 2) (t + 1)

/-- `log2_uint`, for a `UINT`. -/
def log2Uint (i : Nat) : Nat := log2Loop 32 (i / 2) 0

/-- The loop that makes a multiplier smaller, by one shift for each turn. -/
def reduceMultiplier : Nat → Nat → Nat → Nat × Nat × Nat
  | 0, mLow, mHigh => (0, mLow, mHigh)
  | l + 1, mLow, mHigh =>
      if mLow / 2 < mHigh / 2 then
        reduceMultiplier l (mLow / 2) (mHigh / 2)
      else
        (l + 1, mLow, mHigh)

/-- A multiplier, the shift after the multiplication, and whether one more
addition is called for. -/
structure Multiplier where
  m : Nat
  s : Nat
  a : Bool
  deriving DecidableEq

/-- The multiplier of a signed division with 32 bits. -/
def signedMultiplier (denom_val : Int) : Host Multiplier := do
  let d := denom_val.natAbs
  let l := log2Uint (uint32 d)
  let j ← modulo 0x80000000 d
  let one ← shiftOne (32 + l)
  let k ← divide one (uint64 (0x80000000 - j))
  let mLow ← divide one d
  let mHigh ← divide (uint64 (one + k)) d
  let (l, _, mHigh) := reduceMultiplier l mLow mHigh
  return { m := uint32 mHigh, s := l, a := mHigh / 2 ^ 31 ≠ 0 }

/-- The loop that takes the factors of two from a divisor. -/
def oddPart : Nat → Nat → Nat → Nat × Nat
  | 0, t, n => (t, n)
  | fuel + 1, t, n => if t % 2 = 0 then oddPart fuel (t / 2) (n + 1) else (t, n)

/-- The multiplier of an unsigned division with 32 bits. -/
def unsignedMultiplier (denom_val : Int) : Host Multiplier := do
  let (t, n) := oddPart 32 (uint32 (uint64 denom_val)) 0
  let l := log2Uint t + 1
  let j ← modulo 0xffffffff t
  let one ← shiftOne (32 + l)
  let k ← divide one (uint64 (0xffffffff - j))
  let mLow ← divide one t
  let mHigh ← divide (uint64 (one + k)) t
  let (l, _, mHigh) := reduceMultiplier l mLow mHigh
  if mHigh / 2 ^ 32 = 0 then
    return { m := uint32 mHigh, s := uint32 (l + n), a := false }
  else
    let s := log2Uint t
    let one ← shiftOne (32 + s)
    let mLow ← divide one t
    let r ← modulo one t
    let m :=
      if uint32 r < t / 2 + 1 then uint32 mLow else uint32 (uint32 mLow + 1)
    return { m := m, s := uint32 (s + n), a := true }

/-! ## Pseudo-inverses -/

/-- The loop for the smallest `n` with `2^n ≥ b`. -/
def widthLoop (b1 : Nat) : Nat → Nat → Nat → Nat × Nat
  | 0, n, m => (n, m)
  | fuel + 1, n, m =>
      if m < b1 then widthLoop b1 fuel (n + 1) (uint64 (2 * m) + 1) else (n, m)

/-- The state of the division that `determine_pseudo_inverse` makes. -/
structure PseudoState where
  q : Nat
  m : Nat
  mOverflow : Bool

/-- One turn of the division. -/
def pseudoTurn (b : Nat) (state : PseudoState) : PseudoState :=
  let q := uint64 (2 * state.q)
  let (q, m) :=
    if state.mOverflow then (q + 1, uint64 ((state.m : Int) - b))
    else if state.m ≥ b then (q + 1, state.m - b)
    else (q, state.m)
  { q := q, m := uint64 (2 * m) + 1, mOverflow := 2 ^ 63 ≤ m }

/-- `determine_pseudo_inverse`: the pseudo-inverse and `n`. -/
def determinePseudoInverse (b maxbits_a : Nat) : Nat × Nat :=
  let (n, m) := widthLoop (uint64 ((b : Int) - 1)) 64 1 1
  let last := (pseudoTurn b)^[maxbits_a + 1] { q := 0, m := m, mOverflow := false }
  (uint64 (1 + last.q), n)

/-! ## Sequences -/

/-- `CG_idivbyconst_opt`, `CGEXP_cvrt_int_div_to_mult`, `Is_Target_32bit`. -/
structure Settings where
  idivbyconst : Bool
  cvrtIntDivToMult : Bool
  isTarget32bit : Bool

/-- Append operations, if `Expand_Shift` takes their amounts. -/
def emit (ops : List Op) : Host (Option (List Op)) :=
  if ops.all Op.shiftInRange then .ok (some ops) else .error .assertion

/-- `Expand_Immediate`, by the size of the TN and the value. -/
def expandImmediate (settings : Settings) (size dest : Nat) (val : Int) : Op :=
  if size = 64 then
    .ldc 64 dest val
  else if -2 ^ 31 ≤ val ∧ val < 2 ^ 32 then
    .ldc 32 dest val
  else if settings.isTarget32bit then
    .ldc 32 dest (val % 2 ^ 32)
  else
    .ldc 64 dest val

section Expand

variable (settings : Settings) (result numer next : Nat)

/-- `Expand_Power_Of_2_Divide`; the TNs from `next` on are new. -/
def expandPowerOf2Divide (dvsr : Int) (mtype : MType) :
    Host (Option (List Op)) := do
  let n ← getPowerOf2 dvsr mtype
  let width := mtype.sizeReg
  if ¬mtype.isSigned then
    emit [.shift width .lright result numer n]
  else
    let t1 := next
    let absdvsr := if dvsr < 0 then int64 (-dvsr) else dvsr
    let t2 := next + 1
    let t3 := next + 2
    let t4 := next + 3
    let t5 := if dvsr < 0 then next + 4 else result
    emit
      ([.shift width .aright t1 numer (width - 1),
        .ldc width t2 (int64 (absdvsr - 1)),
        .and width t3 t1 t2,
        .add width t4 t3 numer,
        .shift width .aright t5 t4 n] ++
        if dvsr < 0 then [.neg width result t5] else [])

/-- The signed division with 32 bits. -/
def signedSequence (e : Int) (multiplier : Multiplier) : List Op :=
  let m := multiplier.m
  let s := multiplier.s
  if multiplier.a then
    let tmp1_tn := next
    let mult_tn := next + 1
    let d_tn := next + 2
    let shift_tn := next + 3
    let tmp2_tn := next + 4
    let tmp3_tn := next + 5
    let tmp4_tn := next + 6
    [.movslq tmp1_tn numer,
      expandImmediate settings 64 d_tn (Int.bmod m (2 ^ 32)),
      .imul64 mult_tn tmp1_tn d_tn,
      .shift 64 .lright shift_tn mult_tn 32,
      .add 32 tmp2_tn shift_tn numer,
      .shift 32 .aright tmp3_tn numer 31,
      .shift 32 .aright tmp4_tn tmp2_tn s,
      .sub 32 result tmp4_tn tmp3_tn] ++
      if e > 0 then [.sub 32 result tmp4_tn tmp3_tn]
      else [.sub 32 result tmp3_tn tmp4_tn]
  else if settings.isTarget32bit then
    let eax_tn := next
    let edx_tn := next + 1
    [expandImmediate settings 32 eax_tn m,
      .imulx32 eax_tn edx_tn eax_tn numer,
      .copy 32 eax_tn numer] ++
      (if s ≠ 0 then [.shift 32 .aright edx_tn edx_tn s] else []) ++
      [.shift 32 .lright eax_tn eax_tn 31,
        .add 32 edx_tn edx_tn eax_tn] ++
      (if e < 0 then [.neg 32 edx_tn edx_tn] else []) ++
      [.copy 32 result edx_tn]
  else
    let tmp1_tn := next
    let tmp2_tn := next + 1
    let mult_tn := next + 2
    let d_tn := next + 3
    let shift_tn := next + 4
    let tmp3_tn := next + 5
    [.movslq tmp1_tn numer,
      .shift 32 .aright tmp2_tn numer 31,
      expandImmediate settings 64 d_tn m,
      .imul64 mult_tn tmp1_tn d_tn,
      .shift 64 .lright shift_tn mult_tn 32] ++
      (if s ≠ 0 then [.shift 32 .aright tmp3_tn shift_tn s]
        else [.copy 32 tmp3_tn shift_tn]) ++
      if e < 0 then [.sub 32 result tmp2_tn tmp3_tn]
      else [.sub 32 result tmp3_tn tmp2_tn]

/-- The unsigned division with 32 bits, of divisors below `2^31`. -/
def unsignedSequence (multiplier : Multiplier) : List Op :=
  let s := multiplier.s
  if multiplier.a then
    let tmp1_tn := next
    let tmp2_tn := next + 1
    let tmp3_tn := next + 2
    let tmp4_tn := next + 3
    let m := uint32 (uint32 (2 * multiplier.m) + 1)
    let d_tn := next + 4
    let mult_tn := next + 5
    [expandImmediate settings 64 d_tn m,
      .imul64 mult_tn numer d_tn,
      .shift 64 .lright tmp1_tn mult_tn 32,
      .sub 32 tmp2_tn numer tmp1_tn,
      .shift 32 .lright tmp3_tn tmp2_tn 1,
      .add 32 tmp4_tn tmp3_tn tmp1_tn,
      .shift 32 .lright result tmp4_tn s]
  else
    let tmp1_tn := next
    let d_tn := next + 1
    let mult_tn := next + 2
    [expandImmediate settings 64 d_tn multiplier.m,
      .imul64 mult_tn numer d_tn,
      .shift 64 .lright tmp1_tn mult_tn 32,
      .shift 32 .lright result tmp1_tn s]

/-- The unsigned division with 32 bits, of divisors from `2^31` on. -/
def compareSequence (denom_val : Int) : List Op :=
  let tmp1_tn := next
  let tmp2_tn := next + 1
  let tmp3_tn := next + 2
  [expandImmediate settings 32 tmp1_tn (Int.bmod denom_val (2 ^ 32)),
    .cmp32 numer tmp1_tn,
    expandImmediate settings 32 tmp2_tn 0,
    expandImmediate settings 32 tmp3_tn (-1),
    .sbb32 result tmp2_tn tmp3_tn]

/-- The signed division by a pseudo-inverse. -/
def signedPseudo (denom_val : Int) (mtype : MType) : Host (Option (List Op)) :=
  let width := mtype.sizeReg
  let b := uint64 (if denom_val < 0 then -denom_val else denom_val)
  let (d, n) := determinePseudoInverse b (if mtype.isDouble then 63 else 31)
  if n > (if mtype.isDouble then 63 else 31) then
    .ok none
  else
    let d_tn := next
    let neg_tn := next + 1
    let mult_tn := next + 2
    let low_tn := next + 3
    let shift_tn := if n > 0 then next + 4 else mult_tn
    let tmp_tn := next + 5
    let (copies, shift_tn, numer_tn) :=
      if shift_tn = result then
        ([Op.copy width tmp_tn shift_tn], tmp_tn, numer)
      else if result = numer then
        ([Op.copy width tmp_tn numer], shift_tn, tmp_tn)
      else
        ([], shift_tn, numer)
    emit
      ([expandImmediate settings width d_tn (int64 d),
        .neg width neg_tn numer,
        .cmov .s neg_tn numer,
        .mul width low_tn mult_tn neg_tn d_tn] ++
        (if n > 0 then [.shift width .aright (next + 4) mult_tn (n - 1)]
          else []) ++
        copies ++
        [.neg width result shift_tn,
          .test width numer_tn numer_tn,
          .cmov (if denom_val > 0 then .ge else .l) result shift_tn])

/-- The unsigned division by a pseudo-inverse. -/
def unsignedPseudo (denom_val : Int) (mtype : MType) : Host (Option (List Op)) :=
  let width := mtype.sizeReg
  let b := uint64 denom_val
  let is_odd := b % 2 = 1
  let precision_required :=
    if is_odd then (if mtype.isDouble then 64 else 32)
    else (if mtype.isDouble then 63 else 31)
  let (d, n) := determinePseudoInverse (if is_odd then b else b / 2) precision_required
  if n > precision_required then
    .ok none
  else
    let tmp1_tn := next
    let numer_tn := if is_odd then numer else tmp1_tn
    let d_tn := next + 1
    let mult_tn := next + 2
    let low_tn := next + 3
    emit
      ((if is_odd then [] else [Op.shift width .lright tmp1_tn numer 1]) ++
        [expandImmediate settings width d_tn (int64 d),
          .mul width low_tn mult_tn numer_tn d_tn] ++
        if precision_required = 64 ∨ precision_required = 32 then
          [.sub width (next + 4) numer_tn mult_tn,
            .shift width .lright (next + 5) (next + 4) 1,
            .add width (next + 6) mult_tn (next + 5),
            .shift width .lright result (next + 6) (n - 1)]
        else
          [.shift width .lright result mult_tn (n - 1)])

/--
`Expand_Integer_Divide_By_Constant`: the sequence where it returns `TRUE`,
nothing where it returns `FALSE`.
-/
def expandIntegerDivideByConstant (denom_val : Int) (mtype : MType) : Host (Option (List Op)) :=
  if denom_val = 1 then
    emit [.copy mtype.sizeReg result numer]
  else if mtype.isSigned ∧ denom_val = -1 then
    emit [.neg mtype.sizeReg result numer]
  else if isPowerOf2 denom_val mtype then
    expandPowerOf2Divide result numer next denom_val mtype
  else if ¬settings.cvrtIntDivToMult then
    .ok none
  else if ¬mtype.isDouble ∧ settings.idivbyconst then
    if mtype.isSigned then do
      let multiplier ← signedMultiplier denom_val
      emit (signedSequence settings result numer next denom_val multiplier)
    else if uint32 (uint64 denom_val) < 0x80000000 then do
      let multiplier ← unsignedMultiplier denom_val
      emit (unsignedSequence settings result numer next multiplier)
    else
      emit (compareSequence settings result numer next denom_val)
  else if mtype.isSigned then
    signedPseudo settings result numer next denom_val mtype
  else
    unsignedPseudo settings result numer next denom_val mtype

end Expand

end OpenUH.Cg
