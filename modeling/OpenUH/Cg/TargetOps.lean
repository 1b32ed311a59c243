import Mathlib.Algebra.Order.Ring.Int

/-!
# The operations of the x86-64 code generator

The expansion of a division emits a sequence of operations on TNs.  A TN is
read and written at 32 or 64 bits; an operation of 32 bits clears the upper
half of its result, also where the target is a 32-bit one and a TN of 64 bits
stands for a pair.  Operations that leave flags nothing depends on leave none.
-/

namespace OpenUH.Cg

/-! ## Machines -/

/-- The carry flag, the sign flag, and whether sign and overflow differ. -/
structure Flags where
  carry : Bool
  sign : Bool
  less : Bool
  deriving DecidableEq

/-- The TNs and the flags. -/
structure Machine where
  tns : Nat → BitVec 64
  flags : Option Flags

namespace Machine

/-- The lower bits of a TN. -/
def read (machine : Machine) (width tn : Nat) : BitVec width :=
  (machine.tns tn).setWidth width

/-- Set a TN, and clear the bits above the width. -/
def write (machine : Machine) (width tn : Nat) (value : BitVec width) : Machine :=
  { machine with tns := Function.update machine.tns tn (value.setWidth 64) }

/-- Set the flags. -/
def setFlags (machine : Machine) (flags : Option Flags) : Machine :=
  { machine with flags := flags }

section

variable {machine : Machine} {width other tn different : Nat}
  {value : BitVec width} {flags : Option Flags}

theorem setWidth_read (wide : width ≤ 64) :
    (machine.read 64 tn).setWidth width = machine.read width tn :=
  BitVec.setWidth_setWidth_of_le _ wide

theorem read_write (inside : other ≤ 64) :
    (machine.write width tn value).read other tn = value.setWidth other := by
  unfold read write
  dsimp only
  rw [Function.update_self]
  exact BitVec.setWidth_setWidth_of_le _ inside

@[simp]
theorem read_write_self (wide : width ≤ 64) :
    (machine.write width tn value).read width tn = value := by
  rw [read_write wide, BitVec.setWidth_eq]

@[simp]
theorem read_write_of_ne (apart : different ≠ tn) :
    (machine.write width tn value).read other different = machine.read other different := by
  unfold read write
  dsimp only
  rw [Function.update_of_ne apart]

@[simp]
theorem read_setFlags :
    (machine.setFlags flags).read width tn = machine.read width tn := rfl

@[simp]
theorem flags_setFlags : (machine.setFlags flags).flags = flags := rfl

@[simp]
theorem flags_write : (machine.write width tn value).flags = machine.flags :=
  rfl

end

end Machine

/-! ## Operations -/

/-- The right shifts of `SHIFT_DIRECTION`. -/
inductive ShiftDirection where
  | aright
  | lright
  deriving DecidableEq

/-- The conditions of the conditional moves. -/
inductive Condition where
  | s
  | ge
  | l
  deriving DecidableEq

def Condition.holds (flags : Flags) : Condition → Bool
  | .s => flags.sign
  | .ge => !flags.less
  | .l => flags.less

/-- An operation, with its width where it has both. -/
inductive Op where
  | copy (width result src : Nat)
  | movslq (result src : Nat)
  | ldc (width result : Nat) (value : Int)
  | neg (width result src : Nat)
  | add (width result src1 src2 : Nat)
  | sub (width result src1 src2 : Nat)
  | and (width result src1 src2 : Nat)
  | shift (width : Nat) (kind : ShiftDirection) (result src amount : Nat)
  | imul64 (result src1 src2 : Nat)
  | mul (width low high src1 src2 : Nat)
  | imulx32 (low high src1 src2 : Nat)
  | cmov (condition : Condition) (result src : Nat)
  | test (width src1 src2 : Nat)
  | cmp32 (src1 src2 : Nat)
  | sbb32 (result src1 src2 : Nat)
  deriving DecidableEq

/-- `Expand_Shift` asserts that the amount is less than the width. -/
def Op.shiftInRange : Op → Bool
  | .shift width _ _ _ amount => amount < width
  | _ => true

/-- A shift of a value. -/
def shiftValue {width : Nat} (kind : ShiftDirection) (value : BitVec width)
    (amount : Nat) : BitVec width :=
  match kind with
  | .aright => value.sshiftRight amount
  | .lright => value >>> amount

/-- The upper half of an unsigned product. -/
def highProduct {width : Nat} (x y : BitVec width) : BitVec width :=
  BitVec.ofNat width (x.toNat * y.toNat / 2 ^ width)

/-- The upper half of a signed product. -/
def signedHighProduct {width : Nat} (x y : BitVec width) : BitVec width :=
  BitVec.ofInt width (x.toInt * y.toInt / 2 ^ width)

/-- The flags of a negation. -/
def negFlags {width : Nat} (x : BitVec width) : Flags where
  carry := x ≠ 0
  sign := (-x).msb
  less := (-x).msb ≠ (x = BitVec.intMin width : Bool)

/-- The flags of a test. -/
def testFlags {width : Nat} (x : BitVec width) : Flags where
  carry := false
  sign := x.msb
  less := x.msb

/-- The flags of a comparison. -/
def cmpFlags {width : Nat} (x y : BitVec width) : Flags where
  carry := x.ult y
  sign := (x - y).msb
  less := x.slt y

namespace Machine

/-- One operation; nothing where it depends on flags that are not set. -/
def step (machine : Machine) : Op → Option Machine
  | .copy width result src =>
      some (machine.write width result (machine.read width src))
  | .movslq result src =>
      some (machine.write 64 result ((machine.read 32 src).signExtend 64))
  | .ldc width result value =>
      some (machine.write width result (BitVec.ofInt width value))
  | .neg width result src =>
      some ((machine.write width result (-machine.read width src)).setFlags
        (some (negFlags (machine.read width src))))
  | .add width result src1 src2 =>
      some ((machine.write width result
        (machine.read width src1 + machine.read width src2)).setFlags none)
  | .sub width result src1 src2 =>
      some ((machine.write width result
        (machine.read width src1 - machine.read width src2)).setFlags none)
  | .and width result src1 src2 =>
      some ((machine.write width result
        (machine.read width src1 &&& machine.read width src2)).setFlags none)
  | .shift width kind result src amount =>
      some ((machine.write width result
        (shiftValue kind (machine.read width src) amount)).setFlags none)
  | .imul64 result src1 src2 =>
      some ((machine.write 64 result
        (machine.read 64 src1 * machine.read 64 src2)).setFlags none)
  | .mul width low high src1 src2 =>
      let x := machine.read width src1
      let y := machine.read width src2
      some (((machine.write width low (x * y)).write width high
        (highProduct x y)).setFlags none)
  | .imulx32 low high src1 src2 =>
      let x := machine.read 32 src1
      let y := machine.read 32 src2
      some (((machine.write 32 low (x * y)).write 32 high
        (signedHighProduct x y)).setFlags none)
  | .cmov condition result src =>
      machine.flags.map fun flags =>
        if condition.holds flags then
          machine.write 64 result (machine.read 64 src)
        else machine
  | .test width src1 src2 =>
      some (machine.setFlags (some
        (testFlags (machine.read width src1 &&& machine.read width src2))))
  | .cmp32 src1 src2 =>
      some (machine.setFlags (some
        (cmpFlags (machine.read 32 src1) (machine.read 32 src2))))
  | .sbb32 result src1 src2 =>
      machine.flags.map fun flags =>
        (machine.write 32 result (machine.read 32 src1 - machine.read 32 src2 -
          if flags.carry then 1 else 0)).setFlags none

/-- A sequence of operations. -/
def exec (machine : Machine) : List Op → Option Machine
  | [] => some machine
  | op :: ops => (machine.step op).bind (exec · ops)

section

variable {machine middle after : Machine} {op : Op} {ops more : List Op}

@[simp]
theorem exec_nil : machine.exec [] = some machine := rfl

@[simp]
theorem exec_cons :
    machine.exec (op :: ops) = (machine.step op).bind (exec · ops) := rfl

theorem exec_append (first : machine.exec ops = some middle) :
    machine.exec (ops ++ more) = middle.exec more := by
  induction ops generalizing machine with
  | nil =>
      cases first
      rfl
  | cons op ops ih =>
      obtain ⟨next, stepped, rest⟩ := Option.bind_eq_some_iff.mp first
      rw [List.cons_append, exec_cons, stepped]
      exact ih rest

end

end Machine

end OpenUH.Cg
