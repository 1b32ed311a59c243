import OpenUH.Common.PriorityQueueSafety

/-!
# Sequences of calls on a priority queue

A call that a multiset allows, on a queue that is correct for it, leaves a queue
that is correct for the next multiset, exactly where the call has room.
-/

namespace OpenUH.Common.PriorityQueue

open Foundation.BinaryHeap

variable {α : Type} {prq next : Prq α} {elements : Nat → α}

/-! ## Smaller queues -/

/-- The queue without its bottom element. -/
def Prq.shrink (prq : Prq α) : Prq α :=
  { prq with size := prq.size - 1 }

theorem Prq.shrink_grown (same : prq.shrink.Same next) : prq.Grown next :=
  ⟨same.comparisonFn, same.callbacks, same.allocatedSize.ge⟩

theorem Prq.Settled.shrink (settled : prq.Settled elements) :
    prq.shrink.Settled elements where
  cells i low high := settled.cells i low (high.trans (Nat.sub_le _ 1))
  roomy := (Nat.sub_le _ 1).trans settled.roomy
  indexed callbacks i low high := settled.indexed callbacks i low (high.trans (Nat.sub_le _ 1))

/-- The elements of a queue with callbacks differ. -/
theorem Prq.Settled.nodup (settled : prq.Settled elements) (callbacks : prq.callbacks = true) :
    (contents prq.size elements).Nodup := by
  have indexed := settled.indexed callbacks
  have count : ∀ size ≤ prq.size, (contents size elements).Nodup := by
    intro size
    induction size with
    | zero => exact fun _ => Multiset.nodup_zero
    | succ size ih =>
        intro inside
        rw [contents_succ, Multiset.nodup_cons]
        refine ⟨fun member => ?_, ih (by omega)⟩
        obtain ⟨i, low, high, same⟩ := mem_contents.1 member
        have := indexed.injective low (by omega) (by omega) inside same
        omega
  exact count _ le_rfl

variable [DecidableEq α]

/-- The bottom element is stored at another position. -/
theorem Prq.Settled.refill {position : Nat} [IsStrictWeakOrder α prq.Precedes]
    (settled : prq.Settled elements) (ordered : Ordered prq.Precedes prq.size elements)
    (low : 1 ≤ position) (high : position < prq.size) :
    ∃ next, prq.shrink.setIth position (elements prq.size) = some next ∧
      prq.shrink.Same next ∧
      (∀ i, 1 ≤ i → i ≠ position → next.ith i = prq.shrink.ith i) ∧
      next.Settled (Function.update elements position (elements prq.size)) ∧
      Loose next.Precedes next.size
        (Function.update elements position (elements prq.size)) position ∧
      contents next.size (Function.update elements position (elements prq.size)) =
        (contents prq.size elements).erase (elements position) := by
  have shrunk := settled.shrink
  have inside : position ≤ prq.shrink.size := Nat.le_sub_one_of_lt high
  have sifted : prq.shrink.Sifted
      (Function.update elements position (elements prq.size)) position := by
    refine ⟨low, inside, ?_, shrunk.roomy, ?_⟩
    · intro i lower higher away
      rw [Function.update_of_ne away]
      exact shrunk.cells i lower higher
    · intro callbacks
      apply (shrunk.indexed callbacks).replace
      intro i lower higher away same
      have inside : i ≤ prq.size - 1 := higher
      have := (settled.indexed callbacks).injective lower (by omega) (by omega) le_rfl same
      omega
  obtain ⟨next, stored, same, cells, done⟩ := sifted.finish
  rw [Function.update_self] at stored
  refine ⟨next, stored, same, cells, done, ?_, ?_⟩
  · rw [same.precedes, same.size]
    exact ordered.shrink.replace inside _
  · rw [same.size]
    exact contents_replace elements low high

omit [DecidableEq α] in
/-- The multiset is that of the tree, so it has an element where the queue has one. -/
theorem contents_ne_zero_iff (size : Nat) (elements : Nat → α) :
    contents size elements ≠ 0 ↔ 0 < size := by
  cases size with
  | zero => simp [contents_zero]
  | succ size => simp [contents_succ]

/-! ## Growth -/

omit [DecidableEq α] in
/-- The next size of the vector is above the size of the queue. -/
theorem Prq.newSize_spec (fits : prq.GrowthFits) :
    ∃ newSize, prq.newSize = some newSize ∧ prq.size < newSize := by
  unfold Prq.newSize int32
  rw [if_pos fits.1]
  show ∃ newSize, (if prq.size * prq.expansionFactor / 100 ≤ prq.size then _ else _) = _ ∧ _
  by_cases small : prq.size * prq.expansionFactor / 100 ≤ prq.size
  · rw [if_pos small, if_pos (fits.2 small)]
    exact ⟨_, rfl, by omega⟩
  · rw [if_neg small]
    exact ⟨_, rfl, Nat.lt_of_not_le small⟩

omit [DecidableEq α] in
theorem Prq.newSize_eq_none (wide : ¬ prq.GrowthFits) : prq.newSize = none := by
  unfold Prq.newSize int32
  by_cases product : prq.size * prq.expansionFactor < 2 ^ 31
  · rw [if_pos product]
    show (if prq.size * prq.expansionFactor / 100 ≤ prq.size then _ else _) = _
    by_cases small : prq.size * prq.expansionFactor / 100 ≤ prq.size
    · rw [if_pos small, if_neg fun sum => wide ⟨product, fun _ => sum⟩]
    · exact absurd ⟨product, fun both => absurd both small⟩ wide
  · rw [if_neg product]
    rfl

omit [DecidableEq α] in
/-- Growth changes the size of the vector only. -/
theorem Prq.grow_spec (roomy : prq.size ≤ prq.allocatedSize)
    (fits : prq.size = prq.allocatedSize → prq.GrowthFits) :
    ∃ allocatedSize, prq.grow = some { prq with allocatedSize := allocatedSize } ∧
      prq.size < allocatedSize ∧ prq.allocatedSize ≤ allocatedSize := by
  by_cases full : prq.size = prq.allocatedSize
  · obtain ⟨newSize, computed, more⟩ := Prq.newSize_spec (fits full)
    refine ⟨newSize, ?_, more, full ▸ more.le⟩
    rw [Prq.grow, if_pos full, computed]
    rfl
  · exact ⟨prq.allocatedSize, if_neg full, lt_of_le_of_ne roomy full, le_rfl⟩

/-! ## Insertion -/

/-- What an insertion ends with, where it has room. -/
theorem Prq.insert_correct [IsStrictWeakOrder α prq.Precedes] {held : Multiset α}
    (correct : prq.Correct held) (element : α)
    (fits : prq.size = prq.allocatedSize → prq.GrowthFits)
    (fresh : prq.callbacks = true → element ∉ held) :
    ∃ next, prq.insert element = some next ∧ prq.Grown next ∧ next.Correct (element ::ₘ held) := by
  obtain ⟨elements, settled, rfl, ordered⟩ := Prq.correct_iff.1 correct
  obtain ⟨allocatedSize, grown, more, larger⟩ := Prq.grow_spec settled.roomy fits
  have sifted : Prq.Sifted { prq with
      allocatedSize := allocatedSize, size := prq.size + 1 }
      (Function.update elements (prq.size + 1) element) (prq.size + 1) := by
    refine ⟨by omega, le_rfl, ?_, more, ?_⟩
    · intro i low high away
      have inside : i ≤ prq.size + 1 := high
      rw [Function.update_of_ne away]
      exact settled.cells i low (by omega)
    · intro callbacks i low high away
      have inside : i ≤ prq.size + 1 := high
      rw [Function.update_of_ne away, Function.update_self]
      refine ⟨settled.indexed callbacks i low (by omega), fun same => ?_⟩
      exact fresh callbacks (mem_contents.2 ⟨i, low, by omega, same⟩)
  obtain ⟨middle, stored, same, -, placed⟩ := sifted.finish
  rw [Function.update_self] at stored
  have precedes : middle.Precedes = prq.Precedes := same.precedes
  have size : middle.size = prq.size + 1 := same.size
  have order : IsStrictWeakOrder α middle.Precedes := by
    rw [precedes]
    infer_instance
  have rising : Rising middle.Precedes middle.size
      (Function.update elements (prq.size + 1) element) (prq.size + 1) := by
    rw [precedes, size]
    exact ordered.append element
  obtain ⟨next, last, others, ran, kept, done, inside, heap, -⟩ :=
    Prq.upheap_ordered placed (by omega) size.ge rising
  refine ⟨next, ?_, ⟨kept.comparisonFn.trans same.comparisonFn,
    kept.callbacks.trans same.callbacks,
    larger.trans (kept.allocatedSize.trans same.allocatedSize).ge⟩,
    Prq.correct_iff.2 ⟨others, done, ?_, ?_⟩⟩
  · rw [Prq.insert, grown]
    show (Prq.setIth _ _ _ >>= _) = _
    rw [stored]
    show (middle.upheap middle.size >>= _) = _
    rw [size, ran]
    rfl
  · rw [kept.size, inside, size, contents_succ, Function.update_self]
    congr 1
    apply contents_congr
    intro i low high
    exact Function.update_of_ne (by omega) _ _
  · rw [kept.size, kept.precedes]
    exact heap

/-- The cells and fields stay where a sift up has a result. -/
theorem Prq.setIth_same {i : Nat} {element : α} (stored : prq.setIth i element = some next) :
    prq.Same next := by
  unfold Prq.setIth at stored
  split at stored
  case isTrue inside =>
    cases stored
    exact ⟨rfl, rfl, rfl, rfl, rfl⟩
  case isFalse outside => cases stored

theorem Prq.upheapLoop_same {element : α} {index : Nat} {result : Prq α × Nat}
    (ran : Prq.upheapLoop element index prq = some result) :
    prq.Same result.1 := by
  induction index using Nat.strong_induction_on generalizing prq with
  | _ index ih =>
      rw [Prq.upheapLoop] at ran
      split at ran
      case isTrue low =>
        obtain ⟨parent, -, ran⟩ := Option.bind_eq_some_iff.1 ran
        split at ran
        case isTrue before =>
          obtain ⟨middle, stored, ran⟩ := Option.bind_eq_some_iff.1 ran
          exact (Prq.setIth_same stored).trans (ih (index / 2) (by omega) ran)
        case isFalse stays =>
          cases ran
          exact .refl prq
      case isFalse top =>
        cases ran
        exact .refl prq

theorem Prq.upheap_same {index : Nat} {result : Prq α × Nat}
    (ran : prq.upheap index = some result) :
    prq.Same result.1 := by
  unfold Prq.upheap at ran
  split at ran
  case isTrue inside =>
    obtain ⟨element, -, ran⟩ := Option.bind_eq_some_iff.1 ran
    obtain ⟨moved, loop, ran⟩ := Option.bind_eq_some_iff.1 ran
    obtain ⟨final, stored, ran⟩ := Option.bind_eq_some_iff.1 ran
    cases ran
    exact (Prq.upheapLoop_same loop).trans (Prq.setIth_same stored)
  case isFalse outside => cases ran

/-- An insertion changes the sizes only. -/
theorem Prq.insert_same {element : α} (ran : prq.insert element = some next) :
    ∃ allocatedSize, prq.grow = some { prq with allocatedSize := allocatedSize } ∧
      Prq.Same { prq with allocatedSize := allocatedSize, size := prq.size + 1 }
        next := by
  obtain ⟨grown, growth, ran⟩ := Option.bind_eq_some_iff.1 ran
  obtain ⟨middle, stored, ran⟩ := Option.bind_eq_some_iff.1 ran
  obtain ⟨moved, sifted, ran⟩ := Option.bind_eq_some_iff.1 ran
  cases ran
  have sized : ∃ allocatedSize, grown = { prq with allocatedSize := allocatedSize } := by
    unfold Prq.grow at growth
    split at growth
    case isTrue full =>
      obtain ⟨newSize, -, growth⟩ := Option.bind_eq_some_iff.1 growth
      cases growth
      exact ⟨newSize, rfl⟩
    case isFalse free =>
      cases growth
      exact ⟨_, rfl⟩
  obtain ⟨allocatedSize, rfl⟩ := sized
  exact ⟨allocatedSize, growth, (Prq.setIth_same stored).trans (Prq.upheap_same sifted)⟩

/-- An insertion without room has no result, or leaves a wrong queue. -/
theorem Prq.insert_incorrect {held : Multiset α} {element : α}
    (wrong : ¬ ((prq.size = prq.allocatedSize → prq.GrowthFits) ∧
      (prq.callbacks = true → element ∉ held)))
    (ran : prq.insert element = some next) :
    ¬ next.Correct (element ::ₘ held) := by
  intro correct
  apply wrong
  constructor
  · intro full
    by_contra wide
    obtain ⟨grown, growth, -⟩ := Option.bind_eq_some_iff.1 ran
    rw [Prq.grow, if_pos full, Prq.newSize_eq_none wide] at growth
    cases growth
  · intro callbacks
    obtain ⟨elements, settled, same, -⟩ := Prq.correct_iff.1 correct
    obtain ⟨allocatedSize, -, kept⟩ := Prq.insert_same ran
    have distinct := settled.nodup (kept.callbacks.trans callbacks)
    rw [same] at distinct
    exact (Multiset.nodup_cons.1 distinct).1

/-! ## Deletion of the top -/

omit [DecidableEq α] in
/-- The path is the same after a store at its start. -/
theorem Prq.rests_iff {element : α} {position : Nat} (same : prq.Same next)
    (cells : ∀ i, 1 ≤ i → i ≠ position → next.ith i = prq.ith i) (low : 1 ≤ position) :
    next.Rests element position ↔ prq.Rests element position := by
  constructor
  · intro rests
    exact rests.congr ⟨same.comparisonFn.symm, same.size.symm, same.allocatedSize.symm,
      same.expansionFactor.symm, same.callbacks.symm⟩
      (fun i below => (cells i (by omega) (by omega)).symm) low
  · intro rests
    exact rests.congr same (fun i below => cells i (by omega) (by omega)) low

/-- What the deletion of the top ends with, exactly where it has room. -/
theorem Prq.deleteTop_correct [IsStrictWeakOrder α prq.Precedes] (settled : prq.Settled elements)
    (ordered : Ordered prq.Precedes prq.size elements) (positive : 0 < prq.size) :
    ((prq.size = 1 ∨ prq.shrink.Rests (elements prq.size) 1) →
      ∃ next, prq.deleteTop = some (next, elements 1) ∧ prq.Grown next ∧
        next.Correct ((contents prq.size elements).erase (elements 1))) ∧
    (¬ (prq.size = 1 ∨ prq.shrink.Rests (elements prq.size) 1) → prq.deleteTop = none) := by
  have unfolded : prq.deleteTop = if prq.size = 1 then
      some ({ prq with size := 0 }, elements 1)
    else
      (prq.shrink.setIth 1 (elements prq.size)).bind fun prq =>
        (prq.downheap 1).bind fun moved => some (moved.1, elements 1) := by
    rw [Prq.deleteTop, if_pos positive, settled.cells 1 le_rfl positive,
      settled.cells prq.size positive le_rfl]
    rfl
  rw [unfolded]
  by_cases single : prq.size = 1
  · rw [if_pos single]
    refine ⟨fun _ => ⟨_, rfl, ⟨rfl, rfl, le_rfl⟩, Prq.correct_iff.2 ⟨elements, ?_, ?_, ?_⟩⟩,
      fun wrong => absurd (Or.inl single) wrong⟩
    · have shrunk := settled.shrink
      unfold Prq.shrink at shrunk
      rw [single] at shrunk
      exact shrunk
    · rw [single]
      exact contents_shrink elements one_pos
    · intro i low high
      have : i ≤ 0 := high
      omega
  · rw [if_neg single, or_iff_right single]
    obtain ⟨middle, stored, same, cells, placed, loose, held⟩ :=
      settled.refill ordered le_rfl (by omega)
    have order : IsStrictWeakOrder α middle.Precedes := by
      rw [same.precedes]
      assumption
    have inside : 1 ≤ middle.size := by
      rw [same.size]
      show 1 ≤ prq.size - 1
      omega
    have sift := Prq.downheap_ordered placed le_rfl inside ⟨loose, by omega⟩
    rw [Function.update_self, Prq.rests_iff same cells le_rfl] at sift
    rw [stored]
    constructor
    · intro rests
      obtain ⟨final, last, others, ran, kept, done, both, heap⟩ := sift.1 rests
      refine ⟨final, ?_, Prq.shrink_grown (same.trans kept),
        Prq.correct_iff.2 ⟨others, done, ?_, ?_⟩⟩
      · show (middle.downheap 1).bind _ = _
        rw [ran]
        rfl
      · rw [kept.size, both, held]
      · rw [kept.size, kept.precedes]
        exact heap
    · intro blocked
      show (middle.downheap 1).bind _ = _
      rw [sift.2 blocked]
      rfl

end OpenUH.Common.PriorityQueue
