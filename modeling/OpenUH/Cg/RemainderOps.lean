import OpenUH.Cg.DivideByConstant

/-!
# The operations of a remainder

The expansion of a remainder or a modulus emits the operations of a division,
and some more: additions of addresses, bit operations with immediates, the
division instructions, and moves that depend on the zero flag.  One expansion
emits a branch around two blocks.
-/

namespace OpenUH.Cg

/-! ## Processors -/

/-- The TNs and the flags, with the zero flag where the last test set it. -/
structure Processor where
  machine : Machine
  zero : Option Bool

/-- An operation of a division, or one that divisions do not need. -/
inductive Instr where
  | op (op : Op)
  | andi (width result src : Nat) (value : Int)
  | movz (bits result src : Nat)
  | shli (width result src amount : Nat)
  | leax (width result base index scale : Nat)
  | leaxx (width result index scale : Nat)
  | imul32 (result src1 src2 : Nat)
  | xor (width result src1 src2 : Nat)
  | test (width src1 src2 : Nat)
  | cmovne (result src : Nat)
  | extend (width low high src : Nat)
  | idiv (width quotient remainder low high divisor : Nat)
  | div (width quotient remainder low high divisor : Nat)
  deriving DecidableEq

/-- The results of a signed division, if the divisor is not zero and the quotient
fits. -/
def signedDivision {width : Nat} (low high divisor : BitVec width) :
    Option (BitVec width × BitVec width) :=
  let dividend := high.toInt * 2 ^ width + low.toNat
  let quotient := dividend.tdiv divisor.toInt
  if divisor = 0 ∨ quotient < -2 ^ (width - 1) ∨ 2 ^ (width - 1) ≤ quotient then
    none
  else
    some (BitVec.ofInt width quotient,
      BitVec.ofInt width (dividend.tmod divisor.toInt))

/-- The results of an unsigned division. -/
def unsignedDivision {width : Nat} (low high divisor : BitVec width) :
    Option (BitVec width × BitVec width) :=
  let dividend := high.toNat * 2 ^ width + low.toNat
  let quotient := dividend / divisor.toNat
  if divisor = 0 ∨ 2 ^ width ≤ quotient then
    none
  else
    some (BitVec.ofNat width quotient,
      BitVec.ofNat width (dividend % divisor.toNat))

namespace Processor

/-- A result without flags. -/
def put (processor : Processor) (width result : Nat) (value : BitVec width) :
    Processor where
  machine := (processor.machine.write width result value).setFlags none
  zero := none

/-- The results of a division instruction. -/
def putDivision (processor : Processor) (width quotient remainder : Nat)
    (results : BitVec width × BitVec width) : Processor :=
  (processor.put width quotient results.1).put width remainder results.2

/-- One operation; nothing where it depends on flags that are not set, or fails. -/
def step (processor : Processor) : Instr → Option Processor
  | .op op => (processor.machine.step op).map fun machine =>
      { machine := machine, zero := none }
  | .andi width result src value =>
      some (processor.put width result
        (processor.machine.read width src &&& BitVec.ofInt width value))
  | .movz bits result src =>
      some { processor with
        machine := processor.machine.write bits result
          (processor.machine.read bits src) }
  | .shli width result src amount =>
      some (processor.put width result (processor.machine.read width src <<< amount))
  | .leax width result base index scale =>
      some { processor with
        machine := processor.machine.write width result
          (processor.machine.read width base +
            processor.machine.read width index * BitVec.ofNat width scale) }
  | .leaxx width result index scale =>
      some { processor with
        machine := processor.machine.write width result
          (processor.machine.read width index * BitVec.ofNat width scale) }
  | .imul32 result src1 src2 =>
      some (processor.put 32 result
        (processor.machine.read 32 src1 * processor.machine.read 32 src2))
  | .xor width result src1 src2 =>
      some (processor.put width result
        (processor.machine.read width src1 ^^^ processor.machine.read width src2))
  | .test width src1 src2 =>
      let value := processor.machine.read width src1 &&&
        processor.machine.read width src2
      some {
        machine := processor.machine.setFlags (some (testFlags value))
        zero := some (value = 0 : Bool) }
  | .cmovne result src =>
      processor.zero.map fun zero =>
        if zero then processor
        else { processor with
          machine := processor.machine.write 64 result
            (processor.machine.read 64 src) }
  | .extend width low high src =>
      let value := processor.machine.read width src
      some { processor with
        machine := (processor.machine.write width low value).write width high
          (if value.msb then BitVec.allOnes width else 0) }
  | .idiv width quotient remainder low high divisor =>
      (signedDivision (processor.machine.read width low)
        (processor.machine.read width high)
        (processor.machine.read width divisor)).map
          (processor.putDivision width quotient remainder)
  | .div width quotient remainder low high divisor =>
      (unsignedDivision (processor.machine.read width low)
        (processor.machine.read width high)
        (processor.machine.read width divisor)).map
          (processor.putDivision width quotient remainder)

/-- A sequence of operations. -/
def exec (processor : Processor) : List Instr → Option Processor
  | [] => some processor
  | instr :: instrs => (processor.step instr).bind (exec · instrs)

end Processor

/-! ## Blocks -/

/-- The code of an expansion: operations, and two blocks after a branch that
tests whether 32 bits are not negative. -/
inductive Block where
  | line (instrs : List Instr)
  | branch (src : Nat) (bbThen bbElse : List Instr)

namespace Processor

def execBlock (processor : Processor) : Block → Option Processor
  | .line instrs => processor.exec instrs
  | .branch src bbThen bbElse =>
      if 0 ≤ (processor.machine.read 32 src).toInt then processor.exec bbElse
      else processor.exec bbThen

def run (processor : Processor) : List Block → Option Processor
  | [] => some processor
  | block :: blocks => (processor.execBlock block).bind (run · blocks)

end Processor

/-! ## Sequences of operations -/

section

variable {processor middle : Processor} {instr : Instr} {instrs more : List Instr}

@[simp]
theorem Processor.exec_nil : processor.exec [] = some processor := rfl

@[simp]
theorem Processor.exec_cons :
    processor.exec (instr :: instrs) = (processor.step instr).bind (Processor.exec · instrs) := rfl

theorem Processor.exec_append (first : processor.exec instrs = some middle) :
    processor.exec (instrs ++ more) = middle.exec more := by
  induction instrs generalizing processor with
  | nil =>
      cases first
      rfl
  | cons instr instrs ih =>
      obtain ⟨next, stepped, rest⟩ := Option.bind_eq_some_iff.mp first
      rw [List.cons_append, Processor.exec_cons, stepped]
      exact ih rest

/-- The code of one block. -/
theorem Processor.run_singleton {block : Block} :
    processor.run [block] = processor.execBlock block := by
  show (processor.execBlock block).bind some = _
  cases processor.execBlock block <;> rfl

theorem Processor.run_append {blocks others : List Block}
    (first : processor.run blocks = some middle) :
    processor.run (blocks ++ others) = middle.run others := by
  induction blocks generalizing processor with
  | nil =>
      cases first
      rfl
  | cons block blocks ih =>
      obtain ⟨next, stepped, rest⟩ := Option.bind_eq_some_iff.mp first
      rw [List.cons_append, Processor.run, stepped]
      exact ih rest

/-- An operation of a division, alone. -/
theorem Processor.exec_op {op : Op} {after : Machine}
    (stepped : processor.machine.step op = some after) :
    processor.exec [.op op] = some { machine := after, zero := none } := by
  rw [Processor.exec_cons, Processor.step, stepped]
  rfl

/-- The operations of a division run as they do alone. -/
theorem Processor.exec_ops {ops : List Op} {after : Machine}
    (executed : processor.machine.exec ops = some after) :
    ∃ zero, processor.exec (ops.map .op) = some { machine := after, zero := zero } := by
  induction ops generalizing processor with
  | nil =>
      cases executed
      exact ⟨_, rfl⟩
  | cons op ops ih =>
      obtain ⟨next, stepped, rest⟩ := Option.bind_eq_some_iff.mp executed
      obtain ⟨zero, ran⟩ :=
        @ih { machine := next, zero := none } rest
      refine ⟨zero, ?_⟩
      rw [List.map_cons, Processor.exec_cons, Processor.step, stepped]
      exact ran

/-! ## Frames -/

/-- The TNs that an operation of a division sets. -/
def Op.targets : Op → List Nat
  | .copy _ result _ | .movslq result _ | .ldc _ result _ | .neg _ result _
  | .add _ result _ _ | .sub _ result _ _ | .and _ result _ _
  | .shift _ _ result _ _ | .imul64 result _ _ | .cmov _ result _
  | .sbb32 result _ _ => [result]
  | .mul _ low high _ _ | .imulx32 low high _ _ => [low, high]
  | .test _ _ _ | .cmp32 _ _ => []

theorem Machine.tns_write_of_ne {machine : Machine} {width tn other : Nat}
    {value : BitVec width} (apart : other ≠ tn) :
    (machine.write width tn value).tns other = machine.tns other :=
  Function.update_of_ne apart _ _

/-- An operation leaves the other TNs alone. -/
theorem Machine.step_frame {machine after : Machine} {op : Op} {tn : Nat}
    (stepped : machine.step op = some after) (apart : tn ∉ op.targets) :
    after.tns tn = machine.tns tn := by
  cases op with
  | mul width low high src1 src2 | imulx32 low high src1 src2 =>
      cases stepped
      rw [Op.targets, List.mem_cons, List.mem_singleton, not_or] at apart
      exact (tns_write_of_ne apart.2).trans (tns_write_of_ne apart.1)
  | cmov condition result src =>
      obtain ⟨flags, -, rfl⟩ := Option.map_eq_some_iff.mp stepped
      split
      · exact tns_write_of_ne fun same => apart (List.mem_singleton.mpr same)
      · rfl
  | sbb32 result src1 src2 =>
      obtain ⟨flags, -, rfl⟩ := Option.map_eq_some_iff.mp stepped
      exact tns_write_of_ne fun same => apart (List.mem_singleton.mpr same)
  | test width src1 src2 | cmp32 src1 src2 =>
      cases stepped
      rfl
  | _ =>
      cases stepped
      exact tns_write_of_ne fun same => apart (List.mem_singleton.mpr same)

/-- The TNs that an operation sets. -/
def Instr.targets : Instr → List Nat
  | .op inner => inner.targets
  | .andi _ result _ _ | .movz _ result _ | .shli _ result _ _
  | .leax _ result _ _ _ | .leaxx _ result _ _ | .imul32 result _ _
  | .xor _ result _ _ | .cmovne result _ => [result]
  | .test _ _ _ => []
  | .extend _ low high _ => [low, high]
  | .idiv _ quotient remainder _ _ _ | .div _ quotient remainder _ _ _ =>
      [quotient, remainder]

theorem Processor.tns_put_of_ne {width tn other : Nat} {value : BitVec width} (apart : other ≠ tn) :
    (processor.put width tn value).machine.tns other = processor.machine.tns other :=
  Machine.tns_write_of_ne apart

theorem Processor.step_frame {after : Processor} {tn : Nat}
    (stepped : processor.step instr = some after) (apart : tn ∉ instr.targets) :
    after.machine.tns tn = processor.machine.tns tn := by
  cases instr with
  | op op =>
      obtain ⟨machine, inner, rfl⟩ := Option.map_eq_some_iff.mp stepped
      exact Machine.step_frame inner apart
  | test width src1 src2 =>
      cases stepped
      rfl
  | cmovne result src =>
      obtain ⟨zero, -, rfl⟩ := Option.map_eq_some_iff.mp stepped
      split
      · rfl
      · exact Machine.tns_write_of_ne fun same => apart (List.mem_singleton.mpr same)
  | extend width low high src =>
      cases stepped
      rw [Instr.targets, List.mem_cons, List.mem_singleton, not_or] at apart
      exact (Machine.tns_write_of_ne apart.2).trans (Machine.tns_write_of_ne apart.1)
  | idiv width quotient remainder low high divisor
  | div width quotient remainder low high divisor =>
      obtain ⟨results, -, rfl⟩ := Option.map_eq_some_iff.mp stepped
      rw [Instr.targets, List.mem_cons, List.mem_singleton, not_or] at apart
      exact (Processor.tns_put_of_ne apart.2).trans (Processor.tns_put_of_ne apart.1)
  | _ =>
      cases stepped
      exact Machine.tns_write_of_ne fun same => apart (List.mem_singleton.mpr same)

/-- Operations set one result, and new TNs. -/
def SetsOnly (instrs : List Instr) (result next : Nat) : Prop :=
  ∀ instr ∈ instrs, ∀ tn ∈ instr.targets, tn = result ∨ next ≤ tn

theorem Processor.exec_frame {after : Processor} {result next tn : Nat}
    (executed : processor.exec instrs = some after)
    (only : SetsOnly instrs result next) (other : tn ≠ result) (old : tn < next) :
    after.machine.tns tn = processor.machine.tns tn := by
  induction instrs generalizing processor with
  | nil =>
      cases executed
      rfl
  | cons instr instrs ih =>
      obtain ⟨middle, stepped, rest⟩ := Option.bind_eq_some_iff.mp executed
      rw [ih rest fun each member =>
        only each (List.mem_cons_of_mem _ member)]
      refine Processor.step_frame stepped fun target => ?_
      rcases only instr List.mem_cons_self tn target with same | new
      · exact other same
      · omega

@[simp]
theorem SetsOnly.append {result next : Nat} :
    SetsOnly (instrs ++ more) result next ↔
      SetsOnly instrs result next ∧ SetsOnly more result next :=
  List.forall_mem_append

@[simp]
theorem SetsOnly.cons {result next : Nat} :
    SetsOnly (instr :: instrs) result next ↔
      (∀ tn ∈ instr.targets, tn = result ∨ next ≤ tn) ∧ SetsOnly instrs result next :=
  List.forall_mem_cons

@[simp]
theorem SetsOnly.nil {result next : Nat} : SetsOnly [] result next :=
  nofun

end

end OpenUH.Cg
