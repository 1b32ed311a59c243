import Mathlib.Data.List.Basic

/-!
# Chains of linked cells

A memory holds cells, each with a value and the address of the cell after it.
A chain is a list of addresses and values; it lies in a memory where each of
its cells is linked to the next.  The rules below say what joining chains and
writing cells does to a chain.
-/

namespace OpenUH.Foundation.LinkedCells

universe u

variable {α : Type u}

/-- A cell, with the address of the one after it. -/
structure Cell (α : Type u) where
  value : α
  next : Option Nat

/-- The cells that are allocated, by address. -/
abbrev Memory (α : Type u) := Nat → Option (Cell α)

/-- Where a chain is entered; an empty one leads on to what follows it. -/
def entry (stop : Option Nat) : List (Nat × α) → Option Nat
  | [] => stop
  | cell :: _ => some cell.1

/-- The chain lies in memory, and its last cell is linked to `stop`. -/
def Chained (memory : Memory α) (stop : Option Nat) : List (Nat × α) → Prop
  | [] => True
  | cell :: rest =>
      memory cell.1 = some ⟨cell.2, entry stop rest⟩ ∧ Chained memory stop rest

/-- The addresses of a chain. -/
def addresses (cells : List (Nat × α)) : List Nat :=
  cells.map Prod.fst

/-- The values of a chain. -/
def values (cells : List (Nat × α)) : List α :=
  cells.map Prod.snd

@[simp]
theorem addresses_nil : addresses ([] : List (Nat × α)) = [] :=
  rfl

@[simp]
theorem addresses_cons (cell : Nat × α) (rest : List (Nat × α)) :
    addresses (cell :: rest) = cell.1 :: addresses rest :=
  rfl

@[simp]
theorem addresses_append (left right : List (Nat × α)) :
    addresses (left ++ right) = addresses left ++ addresses right :=
  List.map_append

@[simp]
theorem values_nil : values ([] : List (Nat × α)) = [] :=
  rfl

@[simp]
theorem values_cons (cell : Nat × α) (rest : List (Nat × α)) :
    values (cell :: rest) = cell.2 :: values rest :=
  rfl

@[simp]
theorem values_append (left right : List (Nat × α)) :
    values (left ++ right) = values left ++ values right :=
  List.map_append

variable {cells : List (Nat × α)}

@[simp]
theorem entry_cons (stop : Option Nat) (cell : Nat × α) (rest : List (Nat × α)) :
    entry stop (cell :: rest) = some cell.1 :=
  rfl

@[simp]
theorem entry_append (stop : Option Nat) (left right : List (Nat × α)) :
    entry stop (left ++ right) = entry (entry stop right) left := by
  cases left <;> rfl

/-! ## Joining chains -/

variable {stop : Option Nat}

/-- A chain is joined from two where the first is linked to the second. -/
theorem chained_append {memory : Memory α} {left right : List (Nat × α)} :
    Chained memory stop (left ++ right) ↔
      Chained memory (entry stop right) left ∧ Chained memory stop right := by
  induction left with
  | nil => exact (and_iff_right trivial).symm
  | cons cell left ih =>
      rw [List.cons_append, Chained, Chained, ih, entry_append, and_assoc]

/-- The cell at a position of a chain, as memory holds it. -/
theorem Chained.read {memory : Memory α} {left right : List (Nat × α)}
    {cell : Nat × α} (chained : Chained memory stop (left ++ cell :: right)) :
    memory cell.1 = some ⟨cell.2, entry stop right⟩ :=
  (chained_append.1 chained).2.1

/-! ## Writing cells -/

/-- A chain stays where memory keeps its cells. -/
theorem Chained.congr {memory memory' : Memory α} (chained : Chained memory stop cells)
    (same : ∀ address ∈ addresses cells, memory' address = memory address) :
    Chained memory' stop cells := by
  induction cells with
  | nil => trivial
  | cons cell rest ih =>
      constructor
      · exact (same _ List.mem_cons_self).trans chained.1
      · apply ih chained.2
        intro address member
        exact same _ (List.mem_cons_of_mem _ member)

/-- A write outside of a chain leaves it as it is. -/
theorem Chained.write {memory : Memory α}
    {address : Nat} (chained : Chained memory stop cells) (outside : address ∉ addresses cells)
    (cell : Option (Cell α)) :
    Chained (Function.update memory address cell) stop cells := by
  apply chained.congr
  intro other member
  apply Function.update_of_ne
  rintro rfl
  exact outside member

/-- The last cell of a chain is linked to another one. -/
theorem Chained.relink {memory : Memory α}
    {cell : Nat × α} (chained : Chained memory stop (cells ++ [cell]))
    (outside : cell.1 ∉ addresses cells) (stop' : Option Nat) :
    Chained (Function.update memory cell.1 (some ⟨cell.2, stop'⟩)) stop' (cells ++ [cell]) := by
  obtain ⟨before, -⟩ := chained_append.1 chained
  apply chained_append.2
  constructor
  · exact before.write outside _
  · exact ⟨Function.update_self .., trivial⟩

end OpenUH.Foundation.LinkedCells
