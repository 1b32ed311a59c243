import OpenUH.Libopenmp.CfifoSafety

/-!
# Transfers of chunks between queues

`omp_queue.c` has two routines that take a chunk of items from the head of a
queue, return the first and place the others in an empty queue.  The one for
the array storage computes the new head index in an `int`, and the one for the
CFIFO in an `unsigned int`.
-/

namespace OpenUH.Libopenmp.Queue

open Foundation
open Foundation.Ring

variable {α : Type} {src dst : OmpQueue α} {items : List α} {chunkSize : Nat}

/-! ## The routines -/

/-- The value of an expression of type `int`. -/
def intValue (value : Int) : Int :=
  Int.bmod value (2 ^ 32)

/-- The conversion of an `int` to `unsigned int`. -/
def unsignedValue (value : Int) : Nat :=
  (value % 2 ^ 32).toNat

/-- The number of items that a transfer can take, of the items counted. -/
def transferSize (usedSlots chunkSize availSlots : Nat) : Nat :=
  let actual := if chunkSize > usedSlots then usedSlots else chunkSize
  if actual > availSlots then availSlots else actual

/--
`__ompc_queue_array_transfer_chunk_from_head_to_empty`: the source, the
destination and the item returned.
-/
def queueArrayTransferChunk (src dst : OmpQueue α) (chunkSize : Nat) :
    OmpQueue α × OmpQueue α × Option α :=
  if src.isEmpty || chunkSize = 0 then
    (src, dst, none)
  else
    let actual := transferSize src.usedSlots chunkSize dst.numSlots
    let startHeadIndex := (src.headIndex + 1) % src.numSlots
    let newHeadIndex := (intValue (startHeadIndex + actual - 1)).tmod src.numSlots
    let item := src.items startHeadIndex
    let slots :=
      if newHeadIndex ≥ startHeadIndex then
        copySlots src.items dst.items (startHeadIndex + 1) 1 (actual - 1)
      else
        let behind := src.numSlots - (startHeadIndex + 1)
        copySlots src.items
          (copySlots src.items dst.items (startHeadIndex + 1) 1 behind)
          0 (1 + behind) (newHeadIndex + 1).toNat
    ({ src with
        usedSlots := src.usedSlots - actual
        headIndex := unsignedValue newHeadIndex
        isEmpty := if src.usedSlots - actual = 0 then true else src.isEmpty },
      { dst with
        items := slots
        headIndex := 0
        tailIndex := actual - 1
        usedSlots := actual - 1
        isEmpty := if actual > 1 then false else dst.isEmpty },
      item)

/-- `__ompc_queue_cfifo_array_transfer_chunk_to_empty`, with both sections. -/
def cfifoTransferChunk (src dst : OmpQueue α) (chunkSize : Nat) :
    OmpQueue α × OmpQueue α × Option α :=
  if src.isEmpty || chunkSize = 0 then
    (src, dst, none)
  else
    let after := cfifoTransfer src dst chunkSize
    (cfifoMarkEmpty after.1 after.1.headIndex, after.2)

/-! ## Prefixes -/

/-- The queues of the CFIFO, which does not count its items. -/
structure OmpQueue.CfifoHolds (q : OmpQueue α) (items : List α) : Prop where
  ring : q.RingHolds items
  isEmpty_eq : q.isEmpty = items.isEmpty

/--
A transfer returns the first of some items, places those behind it up to
`count` in the destination, and leaves the others.
-/
structure MovesPrefix (holds : OmpQueue α → List α → Prop) (items : List α)
    (count : Nat) (dst : OmpQueue α)
    (after : OmpQueue α × OmpQueue α × Option α) : Prop where
  item : after.2.2 = items.head?
  left : holds after.1 (items.drop count)
  placed : holds after.2.1 ((items.drop 1).take (count - 1))
  numSlots : after.2.1.numSlots = dst.numSlots
  inside : ∀ index, after.2.1.items index ≠ dst.items index → index < dst.numSlots

/-- The number of items that a transfer of a chunk takes. -/
abbrev chunkCount (items : List α) (dst : OmpQueue α) (chunkSize : Nat) : Nat :=
  min chunkSize (min items.length dst.numSlots)

theorem transferSize_eq :
    transferSize items.length chunkSize dst.numSlots = chunkCount items dst chunkSize := by
  unfold transferSize chunkCount
  dsimp only
  split <;> split <;> omega

theorem actualChunkSize_eq (held : src.RingHolds items) :
    actualChunkSize src dst chunkSize = chunkCount items dst chunkSize := by
  rw [← transferSize_eq, ← held.numUsedSlots_eq]
  rfl

/-! ## The CFIFO -/

section Ring

variable (held : src.RingHolds items)
include held

theorem chunkCount_pos (notEmpty : items ≠ []) (some : 1 ≤ chunkSize)
    (positive : 0 < dst.numSlots) :
    0 < actualChunkSize src dst chunkSize :=
  held.actualChunkSize_pos notEmpty (Nat.one_le_iff_ne_zero.mp some) positive

/-- The item behind the head is the first. -/
theorem items_startHeadIndex (notEmpty : items ≠ []) :
    src.items ((src.headIndex + 1) % src.numSlots) = items.head? := by
  have read := held.items_eq
  cases items with
  | nil => exact absurd rfl notEmpty
  | cons item rest =>
      rw [List.length_cons, slice_succ, List.map_cons, List.cons.injEq] at read
      exact read.1

theorem items_inside (some : 0 < actualChunkSize src dst chunkSize) (index : Nat)
    (written : (cfifoTransfer src dst chunkSize).2.1.items index ≠ dst.items index) :
    index < dst.numSlots := by
  have fits : actualChunkSize src dst chunkSize ≤ dst.numSlots := held.actualChunkSize_le.2
  rw [cfifoTransfer_items held some] at written
  by_contra outside
  exact written (if_neg (by omega))

/-- The source of a transfer is the ring of the items that it leaves. -/
theorem left_ringHolds (some : 0 < actualChunkSize src dst chunkSize) :
    (cfifoTransfer src dst chunkSize).1.RingHolds
      (items.drop (actualChunkSize src dst chunkSize)) := by
  rw [cfifoTransfer_source some]
  exact held.advance held.actualChunkSize_le.1

end Ring

/-- Whether the destination of a transfer is marked empty. -/
theorem placed_isEmpty {count : Nat} (some : 0 < count) (available : count ≤ items.length) :
    (if count > 1 then false else true) = ((items.drop 1).take (count - 1)).isEmpty := by
  have length : ((items.drop 1).take (count - 1)).length = count - 1 := by
    rw [List.length_take, List.length_drop]
    omega
  split
  · rename_i more
    refine (List.isEmpty_eq_false_iff.mpr fun none => ?_).symm
    rw [none, List.length_nil] at length
    omega
  · rename_i one
    refine (List.isEmpty_iff.mpr (List.eq_nil_of_length_eq_zero ?_)).symm
    omega

/-- A transfer between two CFIFO queues moves a prefix. -/
theorem cfifoTransferChunk_movesPrefix (held : src.CfifoHolds items) (notEmpty : items ≠ [])
    (empty : dst.CfifoHolds []) (some : 1 ≤ chunkSize) :
    MovesPrefix OmpQueue.CfifoHolds items (chunkCount items dst chunkSize) dst
      (cfifoTransferChunk src dst chunkSize) := by
  obtain ⟨ring, marked⟩ := held
  have positive := chunkCount_pos ring notEmpty some empty.ring.positive
  have taken : ¬(src.isEmpty || chunkSize = 0) = true := by
    rw [marked, List.isEmpty_eq_false_iff.mpr notEmpty, Bool.false_or, decide_eq_true_eq]
    exact Nat.one_le_iff_ne_zero.mp some
  rw [cfifoTransferChunk, if_neg taken, ← actualChunkSize_eq ring]
  have left := left_ringHolds ring positive
  refine
    { item := items_startHeadIndex ring notEmpty
      left := ⟨left.markEmpty _, ?_⟩
      placed := ⟨cfifoTransfer_ringHolds ring positive empty.ring.small, ?_⟩
      numSlots := rfl
      inside := items_inside ring positive }
  · change (if _ then true else src.isEmpty) = _
    rw [marked, List.isEmpty_eq_false_iff.mpr notEmpty]
    split
    · rename_i same
      exact (List.isEmpty_iff.mpr (left.head_eq_tail_iff.mp same)).symm
    · rename_i differ
      exact (List.isEmpty_eq_false_iff.mpr
        fun none => differ (left.head_eq_tail_iff.mpr none)).symm
  · rw [← placed_isEmpty positive ring.actualChunkSize_le.1]
    change (if _ then false else dst.isEmpty) = _
    rw [empty.isEmpty_eq]
    rfl

/-! ## The array storage -/

/-- The ring of a queue of the array storage. -/
theorem OmpQueue.Holds.ring (held : src.Holds items) : src.RingHolds items where
  small := held.small
  room := held.room
  head_lt := held.head_lt
  tail_eq := held.tail_eq
  items_eq := held.items_eq

/-- The new head index is computed without an overflow. -/
def HeadIndexFits (src dst : OmpQueue α) (items : List α) (chunkSize : Nat) : Prop :=
  (src.headIndex + 1) % src.numSlots + chunkCount items dst chunkSize ≤ 2 ^ 31

instance : Decidable (HeadIndexFits src dst items chunkSize) := by
  unfold HeadIndexFits
  infer_instance

/-- Where the head index fits, the two routines move the same items. -/
theorem queueArrayTransferChunk_eq (held : src.Holds items) (notEmpty : items ≠ [])
    (positive : 0 < dst.numSlots) (some : 1 ≤ chunkSize)
    (fits : HeadIndexFits src dst items chunkSize) :
    queueArrayTransferChunk src dst chunkSize =
      ({ (cfifoTransfer src dst chunkSize).1 with
          usedSlots := src.usedSlots - actualChunkSize src dst chunkSize
          isEmpty :=
            if src.usedSlots - actualChunkSize src dst chunkSize = 0 then true
            else src.isEmpty },
        { (cfifoTransfer src dst chunkSize).2.1 with
          usedSlots := actualChunkSize src dst chunkSize - 1 },
        (cfifoTransfer src dst chunkSize).2.2) := by
  have ring := held.ring
  have more := chunkCount_pos ring notEmpty some positive
  have taken : ¬(src.isEmpty || chunkSize = 0) = true := by
    rw [held.isEmpty_eq, List.isEmpty_eq_false_iff.mpr notEmpty, Bool.false_or, decide_eq_true_eq]
    exact Nat.one_le_iff_ne_zero.mp some
  have actual : transferSize src.usedSlots chunkSize dst.numSlots =
      actualChunkSize src dst chunkSize := by
    rw [held.used_eq, transferSize_eq, actualChunkSize_eq ring]
  unfold HeadIndexFits at fits
  rw [← actualChunkSize_eq ring] at fits
  have small := held.small
  have inside := Nat.mod_lt (src.headIndex + 1) ring.positive
  rw [queueArrayTransferChunk, if_neg taken, actual]
  unfold cfifoTransfer
  dsimp only
  generalize actualChunkSize src dst chunkSize = count at *
  generalize (src.headIndex + 1) % src.numSlots = first at *
  have value : intValue ((first : Int) + count - 1) = (first + count - 1 : Nat) := by
    rw [intValue, Int.bmod_eq_iff (by decide)]
    omega
  have quotient : ((first + count - 1 : Nat) : Int).tmod src.numSlots =
      ((first + count - 1) % src.numSlots : Nat) := by
    rw [← Int.ofNat_tmod]
  rw [value, quotient]
  have bound := Nat.mod_lt (first + count - 1) ring.positive
  generalize (first + count - 1) % src.numSlots = last at *
  have unsigned : unsignedValue (last : Int) = last := by
    unfold unsignedValue
    omega
  have next : ((last : Int) + 1).toNat = last + 1 := by omega
  rw [unsigned, next]
  simp only [ge_iff_le, Int.ofNat_le]

/-- Where the head index fits, a transfer moves a prefix. -/
theorem queueArrayTransferChunk_movesPrefix (held : src.Holds items) (notEmpty : items ≠ [])
    (empty : dst.Holds []) (some : 1 ≤ chunkSize) (fits : HeadIndexFits src dst items chunkSize) :
    MovesPrefix OmpQueue.Holds items (chunkCount items dst chunkSize) dst
      (queueArrayTransferChunk src dst chunkSize) := by
  have ring := held.ring
  have positive := chunkCount_pos ring notEmpty some empty.positive
  have available : actualChunkSize src dst chunkSize ≤ items.length := ring.actualChunkSize_le.1
  have left := left_ringHolds ring positive
  have placed := cfifoTransfer_ringHolds ring positive empty.small
  rw [queueArrayTransferChunk_eq held notEmpty empty.positive some fits, ← actualChunkSize_eq ring]
  refine
    { item := items_startHeadIndex ring notEmpty
      left := ⟨left.small, left.room, left.head_lt, left.tail_eq, ?_, ?_, left.items_eq⟩
      placed := ⟨placed.small, placed.room, placed.head_lt, placed.tail_eq, ?_, ?_, placed.items_eq⟩
      numSlots := rfl
      inside := items_inside ring positive }
  · dsimp only
    rw [held.used_eq, List.length_drop]
  · dsimp only
    rw [held.used_eq, held.isEmpty_eq, List.isEmpty_eq_false_iff.mpr notEmpty, ← List.length_drop]
    generalize items.drop _ = rest
    cases rest <;> rfl
  · dsimp only
    rw [List.length_take, List.length_drop]
    omega
  · rw [← placed_isEmpty positive available]
    change (if _ then false else dst.isEmpty) = _
    rw [empty.isEmpty_eq]
    rfl

/-- Where it does not, the new head index is not the one of the items left. -/
theorem not_queueArrayTransferChunk_movesPrefix (held : src.Holds items) (notEmpty : items ≠ [])
    (positive : 0 < dst.numSlots) (some : 1 ≤ chunkSize)
    (overflows : ¬HeadIndexFits src dst items chunkSize) :
    ¬MovesPrefix OmpQueue.Holds items (chunkCount items dst chunkSize) dst
      (queueArrayTransferChunk src dst chunkSize) := by
  intro moves
  have ring := held.ring
  have more := chunkCount_pos ring notEmpty some positive
  have available : actualChunkSize src dst chunkSize ≤ items.length := ring.actualChunkSize_le.1
  have inside := Nat.mod_lt (src.headIndex + 1) ring.positive
  have small := held.small
  have room := held.room
  have head := moves.left.head_lt
  have tail := moves.left.tail_eq
  have taken : ¬(src.isEmpty || chunkSize = 0) = true := by
    rw [held.isEmpty_eq, List.isEmpty_eq_false_iff.mpr notEmpty, Bool.false_or, decide_eq_true_eq]
    exact Nat.one_le_iff_ne_zero.mp some
  have actual : transferSize src.usedSlots chunkSize dst.numSlots =
      actualChunkSize src dst chunkSize := by
    rw [held.used_eq, transferSize_eq, actualChunkSize_eq ring]
  unfold HeadIndexFits at overflows
  rw [← actualChunkSize_eq ring] at overflows tail
  rw [queueArrayTransferChunk, if_neg taken, actual] at head tail
  dsimp only at head tail
  have turned : (src.headIndex + 1) % src.numSlots ≡ src.headIndex + 1
      [MOD src.numSlots] := Nat.mod_modEq ..
  have tailIs := held.tail_eq
  rw [List.length_drop] at tail
  generalize actualChunkSize src dst chunkSize = count at *
  generalize (src.headIndex + 1) % src.numSlots = first at *
  have wraps : intValue ((first : Int) + count - 1) = first + count - 1 - 2 ^ 32 := by
    rw [intValue, Int.bmod_eq_iff (by decide)]
    omega
  have negated : (first + count - 1 - 2 ^ 32 : Int) =
      -((2 ^ 32 - (first + count - 1) : Nat) : Int) := by
    omega
  have remainder := Nat.mod_lt (2 ^ 32 - (first + count - 1)) ring.positive
  rw [wraps, negated, Int.neg_tmod, ← Int.ofNat_tmod] at head tail
  -- A negative head index would be a large one, so it is zero.
  have zero : (2 ^ 32 - (first + count - 1)) % src.numSlots = 0 := by
    unfold unsignedValue at head
    omega
  rw [zero] at tail
  have cancelled : src.headIndex + count ≡ 0 [MOD src.numSlots] := by
    apply Nat.ModEq.add_right_cancel' (items.length - count)
    have total : src.headIndex + count + (items.length - count) = src.headIndex + items.length := by
      omega
    rw [total]
    exact tailIs.symm.trans tail
  have multiple : src.numSlots ∣ first + count - 1 := by
    apply Nat.modEq_zero_iff_dvd.mp
    apply Nat.ModEq.add_right_cancel' 1
    have total : first + count - 1 + 1 = first + count := by omega
    rw [total]
    refine (turned.add_right count).trans ?_
    rw [Nat.add_right_comm]
    exact cancelled.add_right 1
  have twice : src.numSlots ≤ first + count - 1 - src.numSlots :=
    Nat.le_of_dvd (by omega) (Nat.dvd_sub multiple (Nat.dvd_refl _))
  omega

/-! ## Both routines -/

/--
A transfer of the array storage moves a prefix exactly where the new head index
is computed without an overflow, and one of the CFIFO always does.
-/
theorem transferChunk_movesPrefix_iff {cfifoSrc cfifoDst : OmpQueue α} {cfifoItems : List α}
    (held : src.Holds items) (notEmpty : items ≠ []) (empty : dst.Holds [])
    (cfifoHeld : cfifoSrc.CfifoHolds cfifoItems) (cfifoNotEmpty : cfifoItems ≠ [])
    (cfifoEmpty : cfifoDst.CfifoHolds []) (some : 1 ≤ chunkSize) :
    (MovesPrefix OmpQueue.Holds items (chunkCount items dst chunkSize) dst
        (queueArrayTransferChunk src dst chunkSize) ↔
      HeadIndexFits src dst items chunkSize) ∧
      MovesPrefix OmpQueue.CfifoHolds cfifoItems
        (chunkCount cfifoItems cfifoDst chunkSize) cfifoDst
        (cfifoTransferChunk cfifoSrc cfifoDst chunkSize) := by
  refine ⟨⟨fun moves => ?_, fun fits => ?_⟩, ?_⟩
  · by_contra overflows
    exact not_queueArrayTransferChunk_movesPrefix held notEmpty empty.positive some
      overflows moves
  · exact queueArrayTransferChunk_movesPrefix held notEmpty empty some fits
  · exact cfifoTransferChunk_movesPrefix cfifoHeld cfifoNotEmpty cfifoEmpty some

/-- Three items behind a head, around the end of a ring. -/
def threeItems (numSlots headIndex : Nat) : OmpQueue Nat where
  items := fun index =>
    if index = (headIndex + 1) % numSlots then some 1
    else if index = (headIndex + 2) % numSlots then some 2
    else some 3
  numSlots := numSlots
  headIndex := headIndex
  tailIndex := (headIndex + 3) % numSlots
  isEmpty := false
  usedSlots := 3

/-- A queue without items. -/
def noItems (numSlots : Nat) : OmpQueue Nat where
  items := fun _ => none
  numSlots := numSlots
  headIndex := 0
  tailIndex := 0
  isEmpty := true
  usedSlots := 0

theorem noItems_holds {numSlots : Nat} (positive : 0 < numSlots)
    (small : numSlots < 2 ^ 31) : (noItems numSlots).Holds [] :=
  ⟨small, positive, positive, (Nat.zero_mod numSlots).symm, rfl, rfl, rfl⟩

theorem threeItems_holds {numSlots headIndex : Nat} (large : 3 < numSlots)
    (small : numSlots < 2 ^ 31) (inside : headIndex < numSlots) :
    (threeItems numSlots headIndex).Holds [1, 2, 3] := by
  refine ⟨small, large, inside, rfl, rfl, rfl, ?_⟩
  have first (offset : Nat) (further : offset ≠ 0) (below : offset < numSlots) :
      (headIndex + 1 + offset) % numSlots ≠ (headIndex + 1) % numSlots :=
    position_ne further below
  have second : (headIndex + 2 + 1) % numSlots ≠ (headIndex + 2) % numSlots :=
    position_ne (by omega) (by omega)
  have third := first 2 (by omega) (by omega)
  have next := first 1 (by omega) (by omega)
  simp only [List.length_cons, List.length_nil, slice_succ, slice_zero, threeItems,
    List.map_cons, List.map_nil, if_true]
  rw [if_neg next, if_neg third, if_neg second]

theorem transferChunk_movesPrefix_iff_threeItems :
    (MovesPrefix OmpQueue.Holds [1, 2, 3] (chunkCount [1, 2, 3] (noItems 8) 2)
        (noItems 8) (queueArrayTransferChunk (threeItems 4 2) (noItems 8) 2) ↔
      HeadIndexFits (threeItems 4 2) (noItems 8) [1, 2, 3] 2) ∧
      MovesPrefix OmpQueue.CfifoHolds [1, 2, 3]
        (chunkCount [1, 2, 3] (noItems 8) 2) (noItems 8)
        (cfifoTransferChunk (threeItems 4 2) (noItems 8) 2) := by
  have held : (threeItems 4 2).Holds [1, 2, 3] :=
    threeItems_holds (by decide) (by decide) (by decide)
  have empty : (noItems 8).Holds [] := noItems_holds (by decide) (by decide)
  exact transferChunk_movesPrefix_iff held (List.cons_ne_nil 1 [2, 3]) empty
    ⟨held.ring, rfl⟩ (List.cons_ne_nil 1 [2, 3]) ⟨empty.ring, rfl⟩ (by decide)

/-- In a ring of 2147483647 slots the sum of the last start and three wraps. -/
theorem transferChunk_not_movesPrefix :
    ¬∀ (src dst : OmpQueue Nat) (items : List Nat) (chunkSize : Nat),
      src.Holds items → items ≠ [] → dst.Holds [] → 1 ≤ chunkSize →
        MovesPrefix OmpQueue.Holds items (chunkCount items dst chunkSize) dst
          (queueArrayTransferChunk src dst chunkSize) := by
  intro all
  have held : (threeItems 2147483647 2147483645).Holds [1, 2, 3] :=
    threeItems_holds (by decide) (by decide) (by decide)
  have empty : (noItems 8).Holds [] := noItems_holds (by decide) (by decide)
  exact not_queueArrayTransferChunk_movesPrefix held (List.cons_ne_nil 1 [2, 3])
    (by decide) (by decide) (by decide)
    (all _ _ _ 3 held (List.cons_ne_nil 1 [2, 3]) empty (by decide))

end OpenUH.Libopenmp.Queue
