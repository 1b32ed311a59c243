import Mathlib.Algebra.Order.Ring.Int

/-!
# First fit with coalescing

An area of blocks that ends in unbounded free memory.  A request takes the
first empty block it fits, or is cut from the free memory behind the blocks; a
released block joins the empty blocks next to it, and the last blocks, once
empty, join the free memory.
-/

namespace OpenUH.Foundation.FirstFit

/-- A block of the area. -/
structure Block where
  size : Nat
  full : Bool
deriving DecidableEq, Repr

/-- A request fits a block. -/
def Block.fits (amount : Nat) (block : Block) : Bool :=
  !block.full && decide (amount ≤ block.size)

/-- What becomes of a block that a request is served from. -/
def Block.take (amount : Nat) (block : Block) : List Block :=
  if block.size = amount then
    [⟨amount, true⟩]
  else
    [⟨amount, true⟩, ⟨block.size - amount, false⟩]

/-- The space the blocks take together. -/
def total (blocks : List Block) : Nat :=
  (blocks.map Block.size).sum

/-- Serve a request: the offset it gets, and the blocks afterwards. -/
def allocate (amount : Nat) : List Block → Nat × List Block
  | [] => (0, [⟨amount, true⟩])
  | block :: rest =>
      if block.fits amount then
        (0, block.take amount ++ rest)
      else
        (block.size + (allocate amount rest).1,
          block :: (allocate amount rest).2)

/-- Mark the full block at an offset as empty. -/
def clear : Nat → List Block → List Block
  | _, [] => []
  | target, block :: rest =>
      if target = 0 then
        ⟨block.size, false⟩ :: rest
      else if target < block.size then
        block :: rest
      else
        block :: clear (target - block.size) rest

/-- Put a block in front, joined with what it can be joined with. -/
def join (block : Block) : List Block → List Block
  | [] => if block.full then [block] else []
  | next :: rest =>
      if block.full || next.full then
        block :: next :: rest
      else
        ⟨block.size + next.size, false⟩ :: rest

/-- Release the block at an offset. -/
def release (target : Nat) (blocks : List Block) : List Block :=
  (clear target blocks).foldr join []

variable {amount : Nat} {block : Block} {front rest blocks : List Block}

@[simp]
theorem total_nil : total [] = 0 :=
  rfl

@[simp]
theorem total_cons : total (block :: rest) = block.size + total rest :=
  List.sum_cons

/-! ## Requests -/

/-- The first block that fits serves the request. -/
theorem allocate_of_fits (notBefore : ∀ other ∈ front, other.fits amount = false)
    (fits : block.fits amount = true) :
    allocate amount (front ++ block :: rest) =
      (total front, front ++ (block.take amount ++ rest)) := by
  induction front with
  | nil => rw [List.nil_append, allocate, if_pos fits, List.nil_append, total_nil]
  | cons first front ih =>
      have notFirst := notBefore first List.mem_cons_self
      have later := ih (fun other member => notBefore other (List.mem_cons_of_mem _ member))
      rw [List.cons_append, allocate, if_neg (by simp [notFirst]), later,
        total_cons, List.cons_append]

/-- A request that fits no block is cut from the free memory. -/
theorem allocate_of_not_fits (notFits : ∀ other ∈ blocks, other.fits amount = false) :
    allocate amount blocks = (total blocks, blocks ++ [⟨amount, true⟩]) := by
  induction blocks with
  | nil => rfl
  | cons first rest ih =>
      have notFirst := notFits first List.mem_cons_self
      have later := ih (fun other member => notFits other (List.mem_cons_of_mem _ member))
      rw [allocate, if_neg (by simp [notFirst]), later, total_cons, List.cons_append]

/-! ## Releases -/

/-- One of two neighbours is full. -/
def OneFull (left right : Block) : Prop :=
  left.full = true ∨ right.full = true

/-- The block behind `front` is the one at that offset. -/
theorem clear_append (positive : ∀ other ∈ front, 0 < other.size) :
    clear (total front) (front ++ block :: rest) = front ++ ⟨block.size, false⟩ :: rest := by
  induction front with
  | nil => rw [List.nil_append, clear, total_nil, if_pos rfl, List.nil_append]
  | cons first front ih =>
      have here := positive first List.mem_cons_self
      have later := ih (fun other member => positive other (List.mem_cons_of_mem _ member))
      rw [List.cons_append, clear, total_cons, if_neg (by omega),
        if_neg (by omega), Nat.add_sub_cancel_left, later, List.cons_append]

/-- Blocks that cannot be joined stay as they are. -/
theorem foldr_join_of_separated (separated : front.IsChain OneFull)
    (lastFull : ∀ last ∈ front.getLast?, last.full = true) :
    front.foldr join rest = front ++ rest := by
  induction front with
  | nil => rfl
  | cons first front ih =>
      rw [List.foldr_cons]
      cases front with
      | nil =>
          have isFull := lastFull first rfl
          cases rest <;> simp [join, isFull]
      | cons second front =>
          rw [List.isChain_cons_cons] at separated
          have later := ih separated.2 (by simpa using lastFull)
          have oneFull : (first.full || second.full) = true := by
            simpa [OneFull] using separated.1
          rw [later, List.cons_append, join, if_pos oneFull]
          rfl

/-- A release joins the block with what is left of it and right of it. -/
theorem release_append (positive : ∀ other ∈ front, 0 < other.size)
    (separated : rest.IsChain OneFull) (lastFull : ∀ last ∈ rest.getLast?, last.full = true) :
    release (total front) (front ++ block :: rest) =
      front.foldr join (join ⟨block.size, false⟩ rest) := by
  have settled : rest.foldr join [] = rest ++ [] := foldr_join_of_separated separated lastFull
  rw [release, clear_append positive, List.foldr_append, List.foldr_cons, settled, List.append_nil]

variable {above below : List Block} {joined joined' : Option Block}

theorem join_empty_front (isEmpty : block.full = false)
    (emptyBelow : ∀ other ∈ joined', other.full = false)
    (fullBelow : ∀ first ∈ below.head?, first.full = true)
    (notLast : joined'.toList ++ below ≠ []) :
    join block (joined'.toList ++ below) = ⟨block.size + total joined'.toList, false⟩ :: below := by
  obtain ⟨size, full⟩ := block
  obtain rfl : full = false := isEmpty
  cases joined' with
  | some next => simp [join, emptyBelow next rfl, total]
  | none =>
      cases below with
      | nil => exact absurd rfl notLast
      | cons first below => simp [join, fullBelow first rfl, total]

theorem foldr_join_behind {size : Nat} (separated : above.IsChain OneFull)
    (fullAbove : ∀ last ∈ above.getLast?, last.full = true)
    (emptyAbove : ∀ other ∈ joined, other.full = false) :
    (above ++ joined.toList).foldr join (⟨size, false⟩ :: below) =
      above ++ ⟨total joined.toList + size, false⟩ :: below := by
  rw [List.foldr_append]
  cases joined with
  | none => simp [foldr_join_of_separated separated fullAbove, total]
  | some last =>
      simp [join, emptyAbove last rfl, foldr_join_of_separated separated fullAbove, total]

section

variable (positive : ∀ other ∈ above ++ joined.toList, 0 < other.size)
  (separatedAbove : above.IsChain OneFull) (fullAbove : ∀ last ∈ above.getLast?, last.full = true)
  (emptyAbove : ∀ other ∈ joined, other.full = false)

include positive separatedAbove fullAbove emptyAbove

/-- A released block joins the empty blocks on both sides of it. -/
theorem release_inside
        (emptyBelow : ∀ other ∈ joined', other.full = false)
    (fullBelow : ∀ first ∈ below.head?, first.full = true)
    (separated : (joined'.toList ++ below).IsChain OneFull)
    (lastFull : ∀ last ∈ (joined'.toList ++ below).getLast?, last.full = true)
    (notLast : joined'.toList ++ below ≠ []) :
    release (total (above ++ joined.toList))
        ((above ++ joined.toList) ++ block :: (joined'.toList ++ below)) =
      above ++ ⟨total joined.toList + (block.size + total joined'.toList), false⟩ :: below := by
  rw [release_append positive separated lastFull, join_empty_front rfl emptyBelow fullBelow notLast]
  exact foldr_join_behind separatedAbove fullAbove emptyAbove

/-- A released block at the end joins the free memory. -/
theorem release_last :
    release (total (above ++ joined.toList))
        ((above ++ joined.toList) ++ [block]) =
      above := by
  rw [release_append positive List.IsChain.nil (by simp), List.foldr_append]
  have settled : above.foldr join [] = above ++ [] :=
    foldr_join_of_separated separatedAbove fullAbove
  cases joined with
  | none => simpa [join] using settled
  | some last => simpa [join, emptyAbove last rfl] using settled

end

end OpenUH.Foundation.FirstFit
