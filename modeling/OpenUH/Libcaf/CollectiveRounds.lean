import OpenUH.Libcaf.CollectiveBufferSafety
import Mathlib.Tactic.Ring

/-!
# The rounds of the collectives inside of their buffers

Where the buffers of a set-up are adequate, the slots up to the number of work
buffers can be used.  The loops over the rounds end, and use no other slots.
-/

namespace OpenUH.Libcaf.CollectiveBuffers

open Foundation.MachineIntegers
open Foundation.Fallible

/-- All of the accesses are inside of the buffers. -/
def Buffers.AllInside (buffers : Buffers) (accesses : List Access) : Prop :=
  ∀ access ∈ accesses, buffers.Inside access

theorem Buffers.allInside_nil (buffers : Buffers) : buffers.AllInside [] :=
  nofun

theorem Buffers.AllInside.append {buffers : Buffers} {first second : List Access}
    (left : buffers.AllInside first) (right : buffers.AllInside second) :
    buffers.AllInside (first ++ second) := by
  intro access member
  rcases List.mem_append.1 member with before | after
  · exact left access before
  · exact right access after

namespace Call

variable {call : Call} {numSteps : Nat} {buffers : Buffers}

/-! ## A slot -/

theorem dataBytes_eq (small : call.slotSize < 2 ^ 31) :
    call.dataBytes = call.sz * call.elemSize := by
  have total := call.slotSize_eq
  have fits := call.szFits
  rw [dataBytes, sizeOfInt_natCast (by omega), sizeMul_of_lt (by omega)]

/-- The flag of the base buffer is behind the data, in the same slot. -/
theorem baseAccesses_inside (small : call.slotSize < 2 ^ 31)
    (room : call.slotSize ≤ buffers.room .base) :
    buffers.AllInside call.baseAccesses := by
  have total := call.slotSize_eq
  have positive := call.elemPos
  intro access member
  rw [baseAccesses, dataBytes_eq small] at member
  rcases List.mem_cons.1 member with data | flag
  · rw [data]
    show 0 + call.sz * call.elemSize ≤ buffers.room .base
    omega
  · rw [List.mem_singleton.1 flag]
    show call.sz * call.elemSize + 1 ≤ buffers.room .base
    omega

/-- A slot that lies in the work buffers. -/
theorem slotAccesses_inside {before : Nat} (small : call.slotSize < 2 ^ 31)
    (base : call.slotSize ≤ buffers.room .base)
    (room : (before + 1) * call.slotSize ≤ buffers.room .work)
    (fits : (before + 1) * call.slotSize < 2 ^ 31) :
    ∃ accesses, call.slotAccesses ((before + 1 : Nat) : Int) = some accesses ∧
      buffers.AllInside accesses := by
  have counted := call.count_le (before + 1)
  have single := call.count_le 1
  have total := call.slotSize_eq
  have positive := call.elemPos
  have slotsBefore : (before + 1) * call.slotSize =
      before * call.slotSize + call.slotSize := Nat.succ_mul _ _
  have countBefore : (before + 1) * (call.sz + 1) =
      before * (call.sz + 1) + (call.sz + 1) := Nat.succ_mul _ _
  have start : before * (call.sz + 1) * call.elemSize = before * call.slotSize := by
    rw [Nat.mul_assoc, slotSize]
  have last : (before * (call.sz + 1) + call.sz) * call.elemSize =
      before * call.slotSize + call.sz * call.elemSize := by
    rw [Nat.add_mul, start]
  have sz1 := @checked_sz1 call (sz1_lt small)
  have firstCast : (((before + 1 : Nat) : Int) - 1) * ((call.sz + 1 : Nat) : Int) =
      ((before * (call.sz + 1) : Nat) : Int) := by
    push_cast
    ring
  have k1Cast : ((before * (call.sz + 1) : Nat) : Int) + 1 =
      ((before * (call.sz + 1) + 1 : Nat) : Int) := by
    push_cast
    rfl
  have k2Cast : ((before + 1 : Nat) : Int) * ((call.sz + 1 : Nat) : Int) =
      (((before + 1) * (call.sz + 1) : Nat) : Int) :=
    call.slots_cast (before + 1)
  have k1 : sizeOfInt (((before * (call.sz + 1) + 1 : Nat) : Int) - 1) =
      before * (call.sz + 1) := by
    rw [Int.natCast_add, Int.natCast_one, Int.add_sub_cancel]
    exact sizeOfInt_natCast (by omega)
  have k2 : sizeOfInt ((((before + 1) * (call.sz + 1) : Nat) : Int) - 1) =
      before * (call.sz + 1) + call.sz := by
    rw [countBefore, ← Nat.add_assoc, Int.natCast_add, Int.natCast_one, Int.add_sub_cancel]
    exact sizeOfInt_natCast (by omega)
  have fitsFirst : checked ((before * (call.sz + 1) : Nat) : Int) =
      some ((before * (call.sz + 1) : Nat) : Int) := checked_natCast (by omega)
  have fitsK1 : checked ((before * (call.sz + 1) + 1 : Nat) : Int) =
      some ((before * (call.sz + 1) + 1 : Nat) : Int) :=
    checked_natCast (by omega)
  have fitsK2 : checked (((before + 1) * (call.sz + 1) : Nat) : Int) =
      some (((before + 1) * (call.sz + 1) : Nat) : Int) :=
    checked_natCast (by omega)
  refine ⟨⟨.work, before * call.slotSize, call.sz * call.elemSize⟩ ::
    ⟨.work, before * call.slotSize + call.sz * call.elemSize, 1⟩ ::
    call.baseAccesses, ?_, ?_⟩
  · rw [slotAccesses, sz1, Option.bind_eq_bind, Option.bind_some, firstCast,
      fitsFirst, Option.bind_some, k1Cast, fitsK1, Option.bind_some, k2Cast,
      fitsK2, Option.bind_some, k1, k2, sizeMul_of_lt (by omega),
      sizeMul_of_lt (by omega), start, last, dataBytes_eq small]
  · intro access member
    rcases List.mem_cons.1 member with data | member
    · rw [data]
      show before * call.slotSize + call.sz * call.elemSize ≤ buffers.room .work
      omega
    · rcases List.mem_cons.1 member with flag | member
      · rw [flag]
        show before * call.slotSize + call.sz * call.elemSize + 1 ≤ buffers.room .work
        omega
      · exact baseAccesses_inside small base access member

theorem Adequate.slot (adequate : call.Adequate numSteps buffers) (small : call.slotSize < 2 ^ 31)
    {before : Nat} (within : ((before + 1 : Nat) : Int) ≤ buffers.numBufs) :
    ∃ accesses, call.slotAccesses ((before + 1 : Nat) : Int) = some accesses ∧
      buffers.AllInside accesses := by
  obtain ⟨room, fits⟩ := adequate.work (before + 1) within
  exact slotAccesses_inside small adequate.base room fits

/-! ## The rounds -/

variable {partner : Nat → Bool} {firstSlot width log2 : Nat}

/-- The slots behind the first ones can be used. -/
def Usable (call : Call) (buffers : Buffers) (firstSlot width : Nat) : Prop :=
  ∀ before, firstSlot ≤ before → before < firstSlot + width →
    ∃ accesses, call.slotAccesses ((before + 1 : Nat) : Int) = some accesses ∧
      buffers.AllInside accesses

theorem Adequate.usable (adequate : call.Adequate numSteps buffers) (small : call.slotSize < 2 ^ 31)
    (within : ((firstSlot + width : Nat) : Int) ≤ buffers.numBufs) :
    call.Usable buffers firstSlot width := by
  intro before _ less
  exact adequate.slot small (by omega)

/-- The rounds of a turn use a slot each. -/
theorem turnAccesses_inside (usable : call.Usable buffers firstSlot width) {i rounds earlier : Nat}
    (within : earlier + rounds ≤ width) :
    ∃ accesses, call.turnAccesses partner firstSlot i rounds (earlier + 1) =
        some accesses ∧
      buffers.AllInside accesses := by
  induction rounds generalizing earlier with
  | zero => exact ⟨[], rfl, buffers.allInside_nil⟩
  | succ rounds ih =>
      obtain ⟨others, turn, inside⟩ := @ih (earlier + 1) (by omega)
      obtain ⟨slot, found, slotInside⟩ := usable (firstSlot + earlier) (by omega) (by omega)
      have slotCast : (firstSlot : Int) + ((earlier + 1 : Nat) : Int) =
          ((firstSlot + earlier + 1 : Nat) : Int) := by omega
      rw [turnAccesses, turn, slotCast]
      by_cases meets : partner (i + (earlier + 1) - 2) = true
      · rw [if_pos meets, found]
        exact ⟨_, rfl, slotInside.append inside⟩
      · rw [if_neg meets]
        exact ⟨_, rfl, buffers.allInside_nil.append inside⟩

/-- The turns left after round `i` end, with as much fuel as there are rounds. -/
theorem loopAccesses_from (usable : call.Usable buffers firstSlot width) (enough : 0 < width)
    {left i : Nat} (covers : log2 < i + left) :
    ∃ accesses, (∀ fuel, left < fuel →
        call.loopAccesses partner log2 width firstSlot fuel i = some accesses) ∧
      buffers.AllInside accesses := by
  induction left generalizing i with
  | zero =>
      refine ⟨[], fun fuel more => ?_, buffers.allInside_nil⟩
      cases fuel with
      | zero => omega
      | succ fuel => rw [loopAccesses, if_neg (by omega)]
  | succ left ih =>
      by_cases done : log2 < i
      · refine ⟨[], fun fuel more => ?_, buffers.allInside_nil⟩
        cases fuel with
        | zero => omega
        | succ fuel => rw [loopAccesses, if_neg (by omega)]
      · obtain ⟨others, later, inside⟩ :=
          @ih (i + width) (by omega)
        obtain ⟨turn, found, turnInside⟩ :=
          @turnAccesses_inside call buffers partner firstSlot width usable i
            (min width (log2 - i + 1)) 0 (by omega)
        refine ⟨turn ++ others, fun fuel more => ?_, turnInside.append inside⟩
        cases fuel with
        | zero => omega
        | succ fuel =>
            rw [loopAccesses, if_pos (by omega), found, later fuel (by omega)]
            rfl

/-- The loop over the rounds ends, inside of the buffers. -/
theorem loopAccesses_inside (usable : call.Usable buffers firstSlot width) (enough : 0 < width)
    (log2 : Nat) :
    ∃ accesses, Settles (fun fuel =>
        call.loopAccesses partner log2 width firstSlot fuel 1) accesses ∧
      buffers.AllInside accesses := by
  obtain ⟨accesses, ends, inside⟩ :=
    @loopAccesses_from call buffers partner firstSlot width log2 usable enough log2 1 (by omega)
  exact ⟨accesses, ⟨log2 + 1, ends⟩, inside⟩

/-- Without rounds there is nothing to do. -/
theorem loopAccesses_zero (width : Nat) (firstSlot : Int) :
    Settles (fun fuel => call.loopAccesses partner 0 width firstSlot fuel 1) [] := by
  refine ⟨1, fun fuel enough => ?_⟩
  cases fuel with
  | zero => omega
  | succ fuel => rfl

/-- A loop whose slots are there, if it has a round at all. -/
theorem Adequate.loop (adequate : call.Adequate numSteps buffers) (small : call.slotSize < 2 ^ 31)
    (positive : 0 < width)
    (within : log2 ≠ 0 → ((firstSlot + width : Nat) : Int) ≤ buffers.numBufs) :
    ∃ accesses, Settles (fun fuel =>
        call.loopAccesses partner log2 width firstSlot fuel 1) accesses ∧
      buffers.AllInside accesses := by
  by_cases rounds : log2 = 0
  · rw [rounds]
    exact ⟨[], loopAccesses_zero width firstSlot, buffers.allInside_nil⟩
  · exact loopAccesses_inside (adequate.usable small (within rounds)) positive log2

end Call

end OpenUH.Libcaf.CollectiveBuffers
