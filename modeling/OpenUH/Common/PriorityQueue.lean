import OpenUH.Foundation.BinaryHeap

/-!
# Priority queues

The heap of pointers of `priority_queue.c`.  Its vector grows by a percentage, its
sifts leave out the store of the moved element until its position is found, and the
optional callbacks tell each element its position.  An operation with a failed
assertion, an access outside of the vector or an overflowing `INT32` has no result.
-/

namespace OpenUH.Common.PriorityQueue

variable {α : Type}

/-! ## Queues -/

/--
A queue.  The callbacks are both there or both left out, `index` is what
`set_index_fn` last set, and a cell that was never written has no element.
-/
structure Prq (α : Type) where
  comparisonFn : α → α → Bool
  size : Nat
  allocatedSize : Nat
  expansionFactor : Nat
  callbacks : Bool
  index : α → Nat
  heapVector : Nat → Option α

/-- The values of `INT32` from zero on. -/
def int32 (value : Nat) : Option Nat :=
  if value < 2 ^ 31 then some value else none

/-- `PRQ_Ith`, whose positions start at one. -/
def Prq.ith (prq : Prq α) (i : Nat) : Option α :=
  if 1 ≤ i then prq.heapVector (i - 1) else none

/-- `PRQ_Set_Ith`. -/
def Prq.setIth [DecidableEq α] (prq : Prq α) (i : Nat) (element : α) : Option (Prq α) :=
  if 1 ≤ i ∧ i ≤ prq.allocatedSize then
    some { prq with
      index := if prq.callbacks then Function.update prq.index element i else prq.index
      heapVector := Function.update prq.heapVector (i - 1) (some element) }
  else
    none

/-! ## Sifting -/

variable [DecidableEq α]

/-- The loop of `PRQ_Upheap`. -/
def Prq.upheapLoop (element : α) (index : Nat) (prq : Prq α) : Option (Prq α × Nat) :=
  if 1 < index then do
    let parent ← prq.ith (index / 2)
    if prq.comparisonFn element parent then do
      let prq ← prq.setIth index parent
      Prq.upheapLoop element (index / 2) prq
    else
      some (prq, index)
  else
    some (prq, index)
termination_by index

/-- `PRQ_Upheap`. -/
def Prq.upheap (prq : Prq α) (index : Nat) : Option (Prq α × Nat) :=
  if 1 ≤ index ∧ index ≤ prq.size then do
    let element ← prq.ith index
    let moved ← Prq.upheapLoop element index prq
    let prq ← moved.1.setIth moved.2 element
    some (prq, moved.2)
  else
    none

/-- Whether the right child is in the heap and precedes the left one. -/
def Prq.rightFirst (prq : Prq α) (leftChildIndex : Nat) : Option Bool := do
  let leftChild ← prq.ith leftChildIndex
  if leftChildIndex + 1 ≤ prq.size then do
    let rightChild ← prq.ith (leftChildIndex + 1)
    some (prq.comparisonFn rightChild leftChild)
  else
    some false

/-- The loop of `PRQ_Downheap`. -/
def Prq.downheapLoop (element : α) (index : Nat) (prq : Prq α) : Option (Prq α × Nat) :=
  if 1 ≤ index ∧ index * 2 < 2 ^ 31 then
    if prq.size < index * 2 then
      some (prq, index)
    else do
      let right ← prq.rightFirst (index * 2)
      let child ← prq.ith (index * 2 + right.toNat)
      if prq.comparisonFn child element then do
        let prq ← prq.setIth index child
        Prq.downheapLoop element (index * 2 + right.toNat) prq
      else
        some (prq, index)
  else
    none
termination_by 2 ^ 31 - index

/-- `PRQ_Downheap`. -/
def Prq.downheap (prq : Prq α) (index : Nat) : Option (Prq α × Nat) :=
  if 1 ≤ index ∧ index ≤ prq.size then do
    let element ← prq.ith index
    let moved ← Prq.downheapLoop element index prq
    let prq ← moved.1.setIth moved.2 element
    some (prq, moved.2)
  else
    none

/-! ## Interface routines -/

omit [DecidableEq α] in
/-- `PRQ_Initialize`. -/
def prqInitialize (comparisonFn : α → α → Bool) (callbacks : Bool) (index : α → Nat)
    (initialSize expansionFactor : Int) : Prq α where
  comparisonFn := comparisonFn
  size := 0
  allocatedSize := if initialSize ≤ 0 then 200 else initialSize.toNat
  expansionFactor := if expansionFactor ≤ 100 then 200 else expansionFactor.toNat
  callbacks := callbacks
  index := index
  heapVector _ := none

/-- `PRQ_Delete_Top`. -/
def Prq.deleteTop (prq : Prq α) : Option (Prq α × α) :=
  if 0 < prq.size then do
    let topElement ← prq.ith 1
    if prq.size = 1 then
      some ({ prq with size := 0 }, topElement)
    else do
      let bottomElement ← prq.ith prq.size
      let prq ← { prq with size := prq.size - 1 }.setIth 1 bottomElement
      let moved ← prq.downheap 1
      some (moved.1, topElement)
  else
    none

/-- `PRQ_Top`. -/
def Prq.top (prq : Prq α) : Option α :=
  if 0 < prq.size then prq.ith 1 else none

/-- The size of the vector after the next growth. -/
def Prq.newSize (prq : Prq α) : Option Nat := do
  let product ← int32 (prq.size * prq.expansionFactor)
  if product / 100 ≤ prq.size then int32 (prq.size + 10) else some (product / 100)

/-- The growth of the vector in `PRQ_Insert`. -/
def Prq.grow (prq : Prq α) : Option (Prq α) :=
  if prq.size = prq.allocatedSize then do
    let newSize ← prq.newSize
    some { prq with allocatedSize := newSize }
  else
    some prq

/-- `PRQ_Insert`. -/
def Prq.insert (prq : Prq α) (element : α) : Option (Prq α) := do
  let prq ← prq.grow
  let prq ← { prq with size := prq.size + 1 }.setIth (prq.size + 1) element
  let moved ← prq.upheap prq.size
  some moved.1

/-- The position of an element: what the callback says, or the first one there. -/
def Prq.position (prq : Prq α) (element : α) : Option Nat :=
  if prq.callbacks then
    if prq.ith (prq.index element) = some element then
      some (prq.index element)
    else
      none
  else
    (List.range' 1 prq.size).find? fun i => prq.ith i = some element

/-- `PRQ_Remove`. -/
def Prq.remove (prq : Prq α) (element : α) : Option (Prq α) :=
  if 0 < prq.size then do
    let index ← prq.position element
    if index = prq.size then
      some { prq with size := prq.size - 1 }
    else do
      let bottomElement ← prq.ith prq.size
      let prq ← { prq with size := prq.size - 1 }.setIth index bottomElement
      let moved ← prq.upheap index
      if index = moved.2 then do
        let moved ← moved.1.downheap index
        some moved.1
      else
        some moved.1
  else
    none

/-! ## Sequences of operations -/

/-- The calls on a queue. -/
inductive Operation (α : Type) where
  | insert (element : α)
  | deleteTop
  | top
  | remove (element : α)
  deriving Repr

/-- A call, with the element that it returns. -/
def Operation.perform (operation : Operation α) (prq : Prq α) : Option (Prq α × Option α) :=
  match operation with
  | .insert element => (prq.insert element).map fun prq => (prq, none)
  | .deleteTop => prq.deleteTop.map fun result => (result.1, some result.2)
  | .top => prq.top.map fun element => (prq, some element)
  | .remove element => (prq.remove element).map fun prq => (prq, none)

/-! ## What a queue is for -/

/-- The calls that a multiset allows. -/
def Operation.Allowed (operation : Operation α) (held : Multiset α) : Prop :=
  match operation with
  | .insert _ => True
  | .deleteTop => held ≠ 0
  | .top => held ≠ 0
  | .remove element => element ∈ held

/-- The multiset after a call that returned some element. -/
def Operation.after (operation : Operation α) (result : Option α)
    (held : Multiset α) : Multiset α :=
  match operation, result with
  | .insert element, _ => element ::ₘ held
  | .deleteTop, some element => held.erase element
  | .deleteTop, none => held
  | .top, _ => held
  | .remove element, _ => held.erase element

/-- The top is returned: an element that no other one precedes. -/
def Operation.Answers (operation : Operation α) (precedes : α → α → Prop)
    (held : Multiset α) (result : Option α) : Prop :=
  match operation with
  | .insert _ => result = none
  | .remove _ => result = none
  | .deleteTop => ∃ top ∈ held, result = some top ∧ ∀ element ∈ held, ¬ precedes element top
  | .top => ∃ top ∈ held, result = some top ∧ ∀ element ∈ held, ¬ precedes element top

omit [DecidableEq α] in
/-- What the comparison function says. -/
def Prq.Precedes (prq : Prq α) (first second : α) : Prop :=
  prq.comparisonFn first second = true

open Foundation.BinaryHeap in
omit [DecidableEq α] in
/--
The vector has room for its elements and holds exactly those of a multiset, no
element precedes its parent, and the callbacks set the positions of the elements.
-/
def Prq.Correct (prq : Prq α) (held : Multiset α) : Prop :=
  ∃ elements : Nat → α,
    (∀ i, 1 ≤ i → i ≤ prq.size → prq.ith i = some (elements i)) ∧
    prq.size ≤ prq.allocatedSize ∧
    contents prq.size elements = held ∧
    Ordered prq.Precedes prq.size elements ∧
    (prq.callbacks = true → Indexed prq.size elements prq.index)

/-- In every state of a sequence of allowed calls the queue is correct. -/
def Sound (prq : Prq α) (held : Multiset α) : List (Operation α) → Prop
  | [] => prq.Correct held
  | operation :: operations => prq.Correct held ∧
      (operation.Allowed held → ∃ next result,
        operation.perform prq = some (next, result) ∧
          operation.Answers prq.Precedes held result ∧
            Sound next (operation.after result held) operations)

/-! ## Room for a call -/

omit [DecidableEq α] in
/-- The products and sums of a growth fit. -/
def Prq.GrowthFits (prq : Prq α) : Prop :=
  prq.size * prq.expansionFactor < 2 ^ 31 ∧
    (prq.size * prq.expansionFactor / 100 ≤ prq.size → prq.size + 10 < 2 ^ 31)

omit [DecidableEq α] in
/--
On the path of the preceding children from a position, an element comes to rest
before the positions whose double does not fit.
-/
inductive Prq.Rests (prq : Prq α) (element : α) : Nat → Prop
  | last {index : Nat}
      (fits : index < 2 ^ 30)
      (childless : prq.size < index * 2) :
      Prq.Rests prq element index
  | stops {index : Nat} {right : Bool} {child : α}
      (fits : index < 2 ^ 30)
      (preceding : prq.rightFirst (index * 2) = some right)
      (there : prq.ith (index * 2 + right.toNat) = some child)
      (inOrder : ¬ prq.Precedes child element) :
      Prq.Rests prq element index
  | goesOn {index : Nat} {right : Bool}
      (fits : index < 2 ^ 30)
      (preceding : prq.rightFirst (index * 2) = some right)
      (below : Prq.Rests prq element (index * 2 + right.toNat)) :
      Prq.Rests prq element index

/-- The queue has room for a call, and an element with an index is held once. -/
def Operation.Room (operation : Operation α) (prq : Prq α) (held : Multiset α) : Prop :=
  match operation with
  | .insert element =>
      (prq.size = prq.allocatedSize → prq.GrowthFits) ∧ (prq.callbacks = true → element ∉ held)
  | .deleteTop =>
      prq.size = 1 ∨ ∃ bottom, prq.ith prq.size = some bottom ∧
        Prq.Rests { prq with size := prq.size - 1 } bottom 1
  | .top => True
  | .remove element => ∃ index, prq.position element = some index ∧
      (index = prq.size ∨ ∃ bottom, prq.ith prq.size = some bottom ∧
        ((∃ parent, 1 < index ∧ prq.ith (index / 2) = some parent ∧
            prq.Precedes bottom parent) ∨
          Prq.Rests { prq with size := prq.size - 1 } bottom index))

/-- Every allowed call of a sequence has room. -/
def Roomy (prq : Prq α) (held : Multiset α) : List (Operation α) → Prop
  | [] => True
  | operation :: operations => operation.Allowed held →
      operation.Room prq held ∧
        ∀ next result, operation.perform prq = some (next, result) →
          Roomy next (operation.after result held) operations

end OpenUH.Common.PriorityQueue
