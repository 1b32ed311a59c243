import Mathlib.Data.List.Nodup
import OpenUH.Foundation.LinkedCells

/-!
# Singly linked lists

`be/com/cxx_base.h` and `cxx_base.cxx` implement the lists of nodes that the
loop nest optimizer edits in place: `SLIST` with its head and its tail, and
`SLIST_ITER`, which steps along the links.  A node that was removed is deleted;
the model has no cell at its address any more, so that a step through such a
node has no result.
-/

namespace OpenUH.Lno

open Foundation.LinkedCells

variable {α : Type}

/-- `SLIST`, with the nodes it is made of and the next address to be handed out. -/
structure Slist (α : Type) where
  memory : Memory α
  head : Option Nat
  tail : Option Nat
  fresh : Nat

namespace Slist

/-! ## The source functions -/

/-- A list without nodes. -/
def empty : Slist α where
  memory := fun _ => none
  head := none
  tail := none
  fresh := 0

/-- `SLIST::Append` of a new node with the value. -/
def append (value : α) (list : Slist α) : Option (Slist α) :=
  let node := list.fresh
  if list.head = none then
    some
      { memory := Function.update list.memory node (some ⟨value, none⟩)
        head := some node
        tail := some node
        fresh := list.fresh + 1 }
  else do
    let tail ← list.tail
    let last ← list.memory tail
    let memory := Function.update list.memory node (some ⟨value, last.next⟩)
    let memory := Function.update memory tail (some ⟨last.value, some node⟩)
    some
      { memory := memory
        head := list.head
        tail := some node
        fresh := list.fresh + 1 }

/-- `SLIST::Remove_Headnode`, and the deletion of the node. -/
def removeHeadnode (list : Slist α) : Option (Slist α) := do
  let oldHead ← list.head
  let cell ← list.memory oldHead
  some
    { list with
      memory := Function.update list.memory oldHead none
      head := cell.next
      tail := if cell.next = none then none else list.tail }

/-- `SLIST::Remove`, and the deletion of the node. -/
def remove (prev : Option Nat) (cur : Nat) (list : Slist α) : Option (Slist α) :=
  match prev with
  | none => list.removeHeadnode
  | some prev => do
      let before ← list.memory prev
      let cell ← list.memory cur
      let memory := Function.update list.memory prev (some ⟨before.value, cell.next⟩)
      some
        { list with
          memory := Function.update memory cur none
          tail := if cell.next = none then some prev else list.tail }

/-- The value of a node. -/
def read (node : Nat) (list : Slist α) : Option α :=
  (list.memory node).map Cell.value

/-- `SLIST_ITER::Next` of an iterator at a node. -/
def next (node : Nat) (list : Slist α) : Option (Option Nat) :=
  (list.memory node).map Cell.next

/-- A value is stored in a node. -/
def write (node : Nat) (value : α) (list : Slist α) : Option (Slist α) := do
  let cell ← list.memory node
  some
    { list with
      memory := Function.update list.memory node (some ⟨value, cell.next⟩) }

/--
The loops that look at each node in turn and remove it, or keep it with a
value that they may have changed.  They take the next node from the iterator
before they remove the one they are at.
-/
def removeEach (visit : α → Option α) :
    (fuel : Nat) → (prevNode node : Option Nat) → Slist α → Option (Slist α)
  | _, _, none, list => some list
  | 0, _, some _, _ => none
  | fuel + 1, prevNode, some node, list => do
      let nextNode ← list.next node
      let value ← list.read node
      match visit value with
      | none => do
          let list ← list.remove prevNode node
          removeEach visit fuel prevNode nextNode list
      | some value => do
          let list ← list.write node value
          removeEach visit fuel (some node) nextNode list

/-! ## The nodes of a list -/

/-- The nodes of a list, in order, with their addresses. -/
structure Represents (list : Slist α) (cells : List (Nat × α)) : Prop where
  head : list.head = entry none cells
  tail : list.tail = (addresses cells).getLast?
  chained : Chained list.memory none cells
  nodup : (addresses cells).Nodup
  handedOut : ∀ address ∈ addresses cells, address < list.fresh

section Operations

variable {list : Slist α} {left right : List (Nat × α)} {node : Nat} {value : α}

section

variable (represents : list.Represents (left ++ (node, value) :: right))

include represents

theorem Represents.memory_eq :
    list.memory node = some ⟨value, entry none right⟩ :=
  represents.chained.read

theorem Represents.read_eq :
    list.read node = some value := by
  rw [read, represents.memory_eq]
  rfl

theorem Represents.next_eq :
    list.next node = some (entry none right) := by
  rw [next, represents.memory_eq]
  rfl

/-- The address of a node occurs once. -/
theorem Represents.outside :
    node ∉ addresses left ∧ node ∉ addresses right := by
  have nodup := represents.nodup
  rw [addresses_append, addresses_cons] at nodup
  constructor
  · intro member
    exact (List.nodup_append.1 nodup).2.2 node member node List.mem_cons_self rfl
  · exact (List.nodup_cons.1 (List.nodup_append.1 nodup).2.1).1

/-- A value is stored in place. -/
theorem Represents.write (newValue : α) :
    ∃ written, list.write node newValue = some written ∧
      written.Represents (left ++ (node, newValue) :: right) ∧
      written.fresh = list.fresh := by
  obtain ⟨outsideLeft, outsideRight⟩ := represents.outside
  obtain ⟨before, -, after⟩ := chained_append.1 represents.chained
  refine ⟨{ list with
    memory := Function.update list.memory node (some ⟨newValue, entry none right⟩) }, ?_, ?_, rfl⟩
  · rw [Slist.write, represents.memory_eq]
    rfl
  have head := represents.head
  have tail := represents.tail
  have nodup := represents.nodup
  have handedOut := represents.handedOut
  simp only [entry_append, addresses_append, addresses_cons] at head tail nodup handedOut
  refine ⟨by rw [entry_append]; exact head, ?_, ?_, ?_, ?_⟩
  · rw [addresses_append, addresses_cons]
    exact tail
  · apply chained_append.2
    constructor
    · exact before.write outsideLeft _
    · exact ⟨Function.update_self .., after.write outsideRight _⟩
  · rw [addresses_append, addresses_cons]
    exact nodup
  · rw [addresses_append, addresses_cons]
    exact handedOut

end

end Operations

/-- A new node comes last. -/
theorem Represents.append {list : Slist α} {cells : List (Nat × α)}
    (represents : list.Represents cells) (value : α) :
    ∃ appended, list.append value = some appended ∧
      appended.Represents (cells ++ [(list.fresh, value)]) := by
  have absent : list.fresh ∉ addresses cells := by
    intro member
    exact Nat.lt_irrefl _ (represents.handedOut _ member)
  have nodup : (addresses (cells ++ [(list.fresh, value)])).Nodup := by
    rw [addresses_append]
    apply List.nodup_append.2
    refine ⟨represents.nodup, List.nodup_singleton _, ?_⟩
    intro other member last isLast same
    have isNew : last = list.fresh := List.mem_singleton.1 isLast
    exact absent (isNew ▸ same ▸ member)
  have handedOut : ∀ address ∈ addresses (cells ++ [(list.fresh, value)]),
      address < list.fresh + 1 := by
    intro address member
    rw [addresses_append, List.mem_append] at member
    rcases member with inside | last
    · exact Nat.lt_succ_of_lt (represents.handedOut _ inside)
    · rw [addresses_cons, addresses_nil, List.mem_singleton] at last
      exact last ▸ Nat.lt_succ_self _
  rcases List.eq_nil_or_concat cells with rfl | ⟨front, last, rfl⟩
  · have head : list.head = none := represents.head
    refine ⟨_, if_pos head, ?_⟩
    exact ⟨rfl, rfl, ⟨Function.update_self .., trivial⟩, nodup, handedOut⟩
  · rw [List.concat_eq_append] at *
    have nonempty : list.head ≠ none := by
      rw [represents.head, entry_append]
      cases front <;> nofun
    have tail : list.tail = some last.1 := by
      rw [represents.tail, addresses_append]
      exact List.getLast?_concat
    have memory : list.memory last.1 = some ⟨last.2, none⟩ := represents.chained.read
    have different : last.1 ≠ list.fresh := Nat.ne_of_lt (represents.handedOut last.1 (by simp))
    have unlinked : last.1 ∉ addresses front := represents.outside.1
    refine ⟨
      { memory := Function.update
          (Function.update list.memory list.fresh (some ⟨value, none⟩))
          last.1 (some ⟨last.2, some list.fresh⟩)
        head := list.head
        tail := some list.fresh
        fresh := list.fresh + 1 }, ?_, ?_, ?_, ?_, nodup, handedOut⟩
    · rw [Slist.append, if_neg nonempty, tail]
      simp only [Option.bind_eq_bind, Option.bind_some, memory]
    · rw [represents.head, entry_append, entry_append, entry_append]
      cases front <;> rfl
    · rw [addresses_append]
      exact List.getLast?_concat.symm
    · apply chained_append.2
      constructor
      · exact (represents.chained.write absent _).relink unlinked _
      · refine ⟨?_, trivial⟩
        exact (Function.update_of_ne different.symm _ _).trans (Function.update_self ..)

/-- A node is taken out of its place. -/
theorem Represents.remove {list : Slist α} {left right : List (Nat × α)} {node : Nat} {value : α}
    (represents : list.Represents (left ++ (node, value) :: right)) :
    ∃ removed, list.remove (addresses left).getLast? node = some removed ∧
      removed.Represents (left ++ right) := by
  obtain ⟨outsideLeft, outsideRight⟩ := represents.outside
  obtain ⟨before, -, after⟩ := chained_append.1 represents.chained
  have memory := represents.memory_eq
  have nodup : (addresses (left ++ right)).Nodup := by
    have all := represents.nodup
    rw [addresses_append, addresses_cons] at all
    rw [addresses_append]
    exact all.sublist ((List.sublist_cons_self _ _).append_left _)
  have handedOut : ∀ address ∈ addresses (left ++ right), address < list.fresh := by
    intro address member
    apply represents.handedOut
    rw [addresses_append] at member ⊢
    rw [addresses_cons]
    grind
  have tail : right ≠ [] → list.tail = (addresses right).getLast? := by
    intro nonempty
    rw [represents.tail, addresses_append, addresses_cons]
    cases right with
    | nil => exact absurd rfl nonempty
    | cons cell right =>
        rw [addresses_cons, List.getLast?_append_cons, List.getLast?_cons_cons]
  rcases List.eq_nil_or_concat left with rfl | ⟨front, last, rfl⟩
  · have head : list.head = some node := represents.head
    refine ⟨
      { list with
        memory := Function.update list.memory node none
        head := entry none right
        tail := if entry none right = none then none else list.tail },
      ?_, rfl, ?_, ?_, nodup, handedOut⟩
    · rw [addresses_nil, List.getLast?_nil, Slist.remove, removeHeadnode, head]
      simp only [Option.bind_eq_bind, Option.bind_some, memory]
    · cases right with
      | nil => rfl
      | cons cell right => exact tail nofun
    · exact after.write outsideRight _
  · rw [List.concat_eq_append] at *
    have link : list.memory last.1 = some ⟨last.2, some node⟩ := before.read
    have different : node ≠ last.1 := by
      rintro rfl
      exact outsideLeft (by simp)
    have separate : last.1 ∉ addresses right := by
      intro member
      rw [addresses_append, addresses_append] at nodup
      exact (List.nodup_append.1 nodup).2.2 last.1 (by simp) last.1 member rfl
    have alone : last.1 ∉ addresses front := by
      intro member
      rw [addresses_append, addresses_append] at nodup
      have inFront := (List.nodup_append.1 nodup).1
      exact (List.nodup_append.1 inFront).2.2 last.1 member last.1 List.mem_cons_self rfl
    refine ⟨
      { list with
        memory := Function.update
          (Function.update list.memory last.1 (some ⟨last.2, entry none right⟩)) node none
        tail := if entry none right = none then some last.1 else list.tail },
      ?_, ?_, ?_, ?_, nodup, handedOut⟩
    · rw [addresses_append, addresses_cons, addresses_nil, List.getLast?_concat, Slist.remove]
      simp only [Option.bind_eq_bind, Option.bind_some, link, memory]
    · have head := represents.head
      rw [entry_append, entry_append] at head ⊢
      rw [head]
      cases front <;> rfl
    · cases right with
      | nil =>
          rw [addresses_append, addresses_append, addresses_nil, List.append_nil]
          exact List.getLast?_concat.symm
      | cons cell right =>
          rw [addresses_append, addresses_cons, List.getLast?_append_cons, ← addresses_cons]
          exact tail nofun
    · apply chained_append.2
      constructor
      · exact (before.relink alone _).write outsideLeft _
      · exact (after.write separate _).write outsideRight _

/-! ## Loops over the nodes -/

/-- What is left of a chain whose values are kept or removed one by one. -/
def visited (visit : α → Option α) (cells : List (Nat × α)) : List (Nat × α) :=
  cells.filterMap fun cell => (visit cell.2).map (Prod.mk cell.1)

@[simp]
theorem values_visited (visit : α → Option α) (cells : List (Nat × α)) :
    values (visited visit cells) = (values cells).filterMap visit := by
  induction cells with
  | nil => rfl
  | cons cell rest ih =>
      rw [visited, List.filterMap_cons, values_cons, List.filterMap_cons]
      cases visit cell.2 with
      | none => exact ih
      | some value => exact congrArg (value :: ·) ih

section Turns

variable {list : Slist α} {left right : List (Nat × α)} {node : Nat}
  {value : α} {visit : α → Option α} {fuel : Nat} {prevNode : Option Nat}

/-- A turn of the loop that removes its node. -/
theorem Represents.removeEach_removed
    (represents : list.Represents (left ++ (node, value) :: right))
    (decision : visit value = none) :
    list.removeEach visit (fuel + 1) prevNode (some node) =
      (list.remove prevNode node).bind (removeEach visit fuel prevNode (entry none right)) := by
  simp only [Slist.removeEach, represents.next_eq, represents.read_eq,
    Option.bind_eq_bind, Option.bind_some, decision]

/-- A turn of the loop that keeps its node. -/
theorem Represents.removeEach_kept {newValue : α}
    (represents : list.Represents (left ++ (node, value) :: right))
    (decision : visit value = some newValue) :
    list.removeEach visit (fuel + 1) prevNode (some node) =
      (list.write node newValue).bind (removeEach visit fuel (some node) (entry none right)) := by
  simp only [Slist.removeEach, represents.next_eq, represents.read_eq,
    Option.bind_eq_bind, Option.bind_some, decision]

end Turns

/-- The loop ends once it was at every node, and has visited each of them once. -/
theorem Represents.removeEach {list : Slist α} {left cells : List (Nat × α)}
    (visit : α → Option α) {fuel : Nat} (represents : list.Represents (left ++ cells))
    (enough : cells.length ≤ fuel) :
    ∃ edited, list.removeEach visit fuel (addresses left).getLast?
        (entry none cells) = some edited ∧
      edited.Represents (left ++ visited visit cells) := by
  induction cells generalizing list left fuel with
  | nil => exact ⟨list, by cases fuel <;> rfl, represents⟩
  | cons cell rest ih =>
      obtain ⟨node, value⟩ := cell
      obtain ⟨fuel, rfl⟩ := Nat.exists_eq_succ_of_ne_zero (Nat.ne_zero_of_lt enough)
      have enough : rest.length ≤ fuel := Nat.le_of_succ_le_succ enough
      cases decision : visit value with
      | none =>
          obtain ⟨removed, ran, kept⟩ := represents.remove
          obtain ⟨edited, rest, held⟩ := ih kept enough
          refine ⟨edited, ?_, ?_⟩
          · refine (represents.removeEach_removed decision).trans ?_
            rw [ran]
            exact rest
          · simpa [visited, decision] using held
      | some newValue =>
          obtain ⟨written, ran, kept, -⟩ := represents.write newValue
          rw [List.append_cons] at kept
          obtain ⟨edited, rest, held⟩ := ih kept enough
          have last : (addresses (left ++ [(node, newValue)])).getLast? = some node := by
            rw [addresses_append]
            exact List.getLast?_concat
          refine ⟨edited, ?_, ?_⟩
          · refine (represents.removeEach_kept decision).trans ?_
            rw [ran]
            exact last ▸ rest
          · simpa [visited, decision] using held

end Slist

end OpenUH.Lno
