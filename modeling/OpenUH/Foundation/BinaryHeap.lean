import Mathlib.Algebra.BigOperators.Intervals

/-!
# Binary heaps

A complete binary tree is an array from position one, where the parent of a position
is its half.  The tree is a heap where no element precedes its parent.  An element
out of place rises or sinks: it is exchanged with its parent, or with the child that
precedes the other one.
-/

namespace OpenUH.Foundation.BinaryHeap

open Finset
open Function (update_of_ne update_self)

/-! ## Strict weak orders -/

section Orders

variable {α : Type*} {precedes : α → α → Prop} [IsStrictWeakOrder α precedes]

/-- Not to precede is transitive in a strict weak order. -/
theorem not_precedes_trans {first second third : α} (left : ¬ precedes first second)
    (right : ¬ precedes second third) :
    ¬ precedes first third := by
  intro both
  by_cases back : precedes second first
  · exact right (IsTrans.trans _ _ _ back both)
  · by_cases ahead : precedes third second
    · exact left (IsTrans.trans _ _ _ both ahead)
    · exact (IsStrictWeakOrder.incomp_trans first second third ⟨left, back⟩ ⟨right, ahead⟩).1 both

/-- What precedes an element precedes what does not precede that one. -/
theorem precedes_of_not_precedes {first second third : α} (left : precedes first second)
    (right : ¬ precedes third second) :
    precedes first third := by
  by_contra outside
  exact not_precedes_trans outside right left

end Orders

variable {α : Type*}

/-! ## Heaps -/

section Heaps

variable (precedes : α → α → Prop)

/-- No element precedes its parent. -/
def Ordered (size : Nat) (elements : Nat → α) : Prop :=
  ∀ i, 2 ≤ i → i ≤ size → ¬ precedes (elements i) (elements (i / 2))

/-- A heap with one element out of place; the others are in order without it. -/
structure Loose (size : Nat) (elements : Nat → α) (hole : Nat) : Prop where
  apart : ∀ i, 2 ≤ i → i ≤ size → i ≠ hole → i / 2 ≠ hole →
    ¬ precedes (elements i) (elements (i / 2))
  around : 2 ≤ hole → ∀ i, i ≤ size → i / 2 = hole → ¬ precedes (elements i) (elements (hole / 2))

/-- A heap whose element out of place is not below its place. -/
structure Rising (size : Nat) (elements : Nat → α) (hole : Nat) : Prop
    extends Loose precedes size elements hole where
  below : ∀ i, 2 ≤ i → i ≤ size → i / 2 = hole → ¬ precedes (elements i) (elements hole)

/-- A heap whose element out of place is not above its place. -/
structure Sinking (size : Nat) (elements : Nat → α) (hole : Nat) : Prop
    extends Loose precedes size elements hole where
  above : 2 ≤ hole → ¬ precedes (elements hole) (elements (hole / 2))

end Heaps

section Moves

variable {precedes : α → α → Prop} {size : Nat} {elements : Nat → α} {hole : Nat}

theorem Ordered.shrink (ordered : Ordered precedes size elements) :
    Ordered precedes (size - 1) elements :=
  fun i low high => ordered i low (high.trans (Nat.sub_le _ 1))

theorem Loose.finish (loose : Loose precedes size elements hole)
    (above : 2 ≤ hole → ¬ precedes (elements hole) (elements (hole / 2)))
    (below : ∀ i, 2 ≤ i → i ≤ size → i / 2 = hole → ¬ precedes (elements i) (elements hole)) :
    Ordered precedes size elements := by
  intro i low high
  by_cases here : i = hole
  · rw [here]
    exact above (here ▸ low)
  · by_cases child : i / 2 = hole
    · rw [child]
      exact below i low high child
    · exact loose.apart i low high here child

/-- The new bottom element is not below its place. -/
theorem Ordered.append (ordered : Ordered precedes size elements) (element : α) :
    Rising precedes (size + 1) (Function.update elements (size + 1) element) (size + 1) where
  apart i low high away above := by
    rw [update_of_ne away, update_of_ne above]
    exact ordered i low (by omega)
  around low i high child := by omega
  below i low high child := by omega

variable [IsStrictWeakOrder α precedes]

/-- An element replaced in a heap. -/
theorem Ordered.replace (ordered : Ordered precedes size elements) (inside : hole ≤ size)
    (element : α) :
    Loose precedes size (Function.update elements hole element) hole where
  apart i low high away above := by
    rw [update_of_ne away, update_of_ne above]
    exact ordered i low high
  around low i high child := by
    rw [update_of_ne (by omega), update_of_ne (by omega)]
    apply not_precedes_trans _ (ordered hole low inside)
    rw [← child]
    exact ordered i (by omega) high

/-- What precedes its parent precedes its children, or is level with them. -/
theorem Loose.rising (loose : Loose precedes size elements hole) (low : 2 ≤ hole)
    (before : precedes (elements hole) (elements (hole / 2))) :
    Rising precedes size elements hole where
  toLoose := loose
  below i _ high child := fun back =>
    loose.around low i high child (IsTrans.trans _ _ _ back before)

/-! ## One exchange -/

/-- The element is exchanged with its parent. -/
theorem Rising.move (rising : Rising precedes size elements hole) (low : 2 ≤ hole)
    (high : hole ≤ size) (before : precedes (elements hole) (elements (hole / 2))) :
    Rising precedes size (elements ∘ Equiv.swap hole (hole / 2)) (hole / 2) := by
  have parent : (elements ∘ Equiv.swap hole (hole / 2)) (hole / 2) = elements hole :=
    congrArg elements (Equiv.swap_apply_right _ _)
  have child : (elements ∘ Equiv.swap hole (hole / 2)) hole = elements (hole / 2) :=
    congrArg elements (Equiv.swap_apply_left _ _)
  have other : ∀ i, i ≠ hole → i ≠ hole / 2 →
      (elements ∘ Equiv.swap hole (hole / 2)) i = elements i := fun i away above =>
    congrArg elements (Equiv.swap_apply_of_ne_of_ne away above)
  have upper : 2 ≤ hole / 2 →
      ¬ precedes (elements (hole / 2)) (elements (hole / 2 / 2)) := fun deep =>
    rising.apart (hole / 2) deep (by omega) (by omega) (by omega)
  have sibling : ∀ i, 2 ≤ i → i ≤ size → i ≠ hole → i / 2 = hole / 2 →
      ¬ precedes (elements i) (elements (hole / 2)) := by
    intro i lower inside away same
    have apart := rising.apart i lower inside away (by omega)
    rwa [same] at apart
  refine ⟨⟨?_, ?_⟩, ?_⟩
  · intro i lower inside away above
    have differs : i ≠ hole := fun same => above (by rw [same])
    rw [other i differs away]
    by_cases below : i / 2 = hole
    · rw [below, child]
      exact rising.around low i inside below
    · rw [other (i / 2) below above]
      exact rising.apart i lower inside differs below
  · intro deep i inside same
    rw [other (hole / 2 / 2) (by omega) (by omega)]
    by_cases here : i = hole
    · rw [here, child]
      exact upper deep
    · rw [other i here (by omega)]
      exact not_precedes_trans (sibling i (by omega) inside here same) (upper deep)
  · intro i lower inside same
    rw [parent]
    by_cases here : i = hole
    · rw [here, child]
      exact asymm before
    · rw [other i here (by omega)]
      exact asymm (precedes_of_not_precedes before (sibling i lower inside here same))

/-- The element is exchanged with the child that the others do not precede. -/
theorem Sinking.move {next : Nat} (sinking : Sinking precedes size elements hole) (low : 2 ≤ next)
    (high : next ≤ size) (isChild : next / 2 = hole)
    (least : ∀ i, 2 ≤ i → i ≤ size → i / 2 = hole → ¬ precedes (elements i) (elements next))
    (before : precedes (elements next) (elements hole)) :
    Sinking precedes size (elements ∘ Equiv.swap hole next) next := by
  have child : (elements ∘ Equiv.swap hole next) next = elements hole :=
    congrArg elements (Equiv.swap_apply_right _ _)
  have parent : (elements ∘ Equiv.swap hole next) hole = elements next :=
    congrArg elements (Equiv.swap_apply_left _ _)
  have other : ∀ i, i ≠ hole → i ≠ next →
      (elements ∘ Equiv.swap hole next) i = elements i := fun i away below =>
    congrArg elements (Equiv.swap_apply_of_ne_of_ne away below)
  refine ⟨⟨?_, ?_⟩, ?_⟩
  · intro i lower inside away below
    by_cases here : i = hole
    · rw [here, parent, other (hole / 2) (by omega) (by omega)]
      exact sinking.around (by omega) next high isChild
    · rw [other i here away]
      by_cases above : i / 2 = hole
      · rw [above, parent]
        exact least i lower inside above
      · rw [other (i / 2) above below]
        exact sinking.apart i lower inside here above
  · intro _ i inside below
    rw [isChild, parent, other i (by omega) (by omega), ← below]
    exact sinking.apart i (by omega) inside (by omega) (by omega)
  · intro _
    rw [isChild, parent, child]
    exact asymm before

/-- No element precedes the top. -/
theorem Ordered.not_precedes_top (ordered : Ordered precedes size elements) {i : Nat} (low : 1 ≤ i)
    (high : i ≤ size) :
    ¬ precedes (elements i) (elements 1) := by
  induction i using Nat.strong_induction_on with
  | _ i ih =>
      by_cases top : i = 1
      · rw [top]
        exact irrefl _
      · exact not_precedes_trans (ordered i (by omega) high)
          (ih (i / 2) (by omega) (by omega) (by omega))

end Moves

/-! ## Contents -/

section Contents

/-- The elements of a tree, each as often as it is there. -/
def contents (size : Nat) (elements : Nat → α) : Multiset α :=
  ∑ i ∈ Icc 1 size, {elements i}

theorem contents_zero (elements : Nat → α) : contents 0 elements = 0 :=
  rfl

theorem contents_succ (size : Nat) (elements : Nat → α) :
    contents (size + 1) elements = elements (size + 1) ::ₘ contents size elements := by
  rw [contents, sum_Icc_succ_top (by omega), add_comm]
  rfl

theorem contents_congr {size : Nat} {elements others : Nat → α}
    (same : ∀ i, 1 ≤ i → i ≤ size → others i = elements i) :
    contents size others = contents size elements := by
  apply sum_congr rfl
  intro i inside
  rw [same i (mem_Icc.1 inside).1 (mem_Icc.1 inside).2]

theorem mem_contents {size : Nat} {elements : Nat → α} {element : α} :
    element ∈ contents size elements ↔ ∃ i, 1 ≤ i ∧ i ≤ size ∧ elements i = element := by
  rw [contents, Multiset.mem_sum]
  constructor
  · rintro ⟨i, inside, member⟩
    exact ⟨i, (mem_Icc.1 inside).1, (mem_Icc.1 inside).2, (Multiset.mem_singleton.1 member).symm⟩
  · rintro ⟨i, low, high, rfl⟩
    exact ⟨i, mem_Icc.2 ⟨low, high⟩, Multiset.mem_singleton_self _⟩

/-- An exchange keeps the contents. -/
theorem contents_swap {size first second : Nat} (elements : Nat → α)
    (low : 1 ≤ first) (high : first ≤ size) (lower : 1 ≤ second) (higher : second ≤ size) :
    contents size (elements ∘ Equiv.swap first second) = contents size elements := by
  apply sum_equiv (Equiv.swap first second)
  · intro i
    rw [mem_Icc, mem_Icc]
    by_cases left : i = first
    · rw [left, Equiv.swap_apply_left]
      omega
    · by_cases right : i = second
      · rw [right, Equiv.swap_apply_right]
        omega
      · rw [Equiv.swap_apply_of_ne_of_ne left right]
  · intro i _
    rfl

variable [DecidableEq α]

/-- The bottom element leaves. -/
theorem contents_shrink {size : Nat} (elements : Nat → α) (positive : 0 < size) :
    contents (size - 1) elements = (contents size elements).erase (elements size) := by
  obtain ⟨size, rfl⟩ : ∃ smaller, size = smaller + 1 := ⟨size - 1, by omega⟩
  rw [contents_succ, Multiset.erase_cons_head]
  rfl

/-- The bottom element takes the place of another one. -/
theorem contents_replace {size position : Nat} (elements : Nat → α)
    (low : 1 ≤ position) (high : position < size) :
    contents (size - 1) (Function.update elements position (elements size)) =
      (contents size elements).erase (elements position) := by
  have exchanged := contents_shrink (elements ∘ Equiv.swap position size) (show 0 < size by omega)
  rw [contents_swap elements low (by omega) (by omega) le_rfl, Function.comp_apply,
    Equiv.swap_apply_right] at exchanged
  rw [← exchanged]
  apply contents_congr
  intro i lower higher
  by_cases here : i = position
  · rw [here, update_self, Function.comp_apply, Equiv.swap_apply_left]
  · rw [update_of_ne here, Function.comp_apply,
      Equiv.swap_apply_of_ne_of_ne here (by omega)]

end Contents

/-! ## Positions -/

section Positions

/-- Each element knows its position. -/
def Indexed (size : Nat) (elements : Nat → α) (index : α → Nat) : Prop :=
  ∀ i, 1 ≤ i → i ≤ size → index (elements i) = i

/-- Each element but one knows its position, and differs from that one. -/
def IndexedBut (size : Nat) (elements : Nat → α) (index : α → Nat) (hole : Nat) : Prop :=
  ∀ i, 1 ≤ i → i ≤ size → i ≠ hole → index (elements i) = i ∧ elements i ≠ elements hole

variable {size : Nat} {elements : Nat → α} {index : α → Nat} {hole : Nat}

theorem Indexed.injective (indexed : Indexed size elements index) {first second : Nat}
    (low : 1 ≤ first) (high : first ≤ size) (lower : 1 ≤ second) (higher : second ≤ size)
    (same : elements first = elements second) :
    first = second := by
  rw [← indexed first low high, same, indexed second lower higher]

/-- An element that is not there takes a place. -/
theorem Indexed.replace (indexed : Indexed size elements index) {element : α}
    (fresh : ∀ i, 1 ≤ i → i ≤ size → i ≠ hole → elements i ≠ element) :
    IndexedBut size (Function.update elements hole element) index hole := by
  intro i low high away
  rw [update_of_ne away, update_self]
  exact ⟨indexed i low high, fresh i low high away⟩

variable [DecidableEq α]

/-- The element in the way is told its new position. -/
theorem IndexedBut.move (indexed : IndexedBut size elements index hole) {next : Nat}
    (low : 1 ≤ next) (high : next ≤ size) (differs : next ≠ hole) :
    IndexedBut size (elements ∘ Equiv.swap hole next)
      (Function.update index (elements next) hole) next := by
  have there := indexed next low high differs
  intro i lower higher away
  rw [Function.comp_apply, Function.comp_apply, Equiv.swap_apply_right]
  by_cases here : i = hole
  · rw [here, Equiv.swap_apply_left, update_self]
    exact ⟨rfl, there.2⟩
  · have kept := indexed i lower higher here
    rw [Equiv.swap_apply_of_ne_of_ne here away, update_of_ne]
    · exact kept
    · intro same
      rw [same, there.1] at kept
      exact away kept.1.symm

/-- The element is told its position. -/
theorem IndexedBut.finish (indexed : IndexedBut size elements index hole) :
    Indexed size elements (Function.update index (elements hole) hole) := by
  intro i low high
  by_cases here : i = hole
  · rw [here, update_self]
  · rw [update_of_ne (indexed i low high here).2]
    exact (indexed i low high here).1

end Positions

end OpenUH.Foundation.BinaryHeap
