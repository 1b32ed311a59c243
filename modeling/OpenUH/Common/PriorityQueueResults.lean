import OpenUH.Common.PriorityQueueRuns

/-!
# Correctness of priority queues

The removal of an element from the middle, and the sequences of all calls.
-/

namespace OpenUH.Common.PriorityQueue

open Foundation.BinaryHeap

variable {α : Type} [DecidableEq α] {prq next : Prq α} {elements : Nat → α}

/-! ## Removal -/

/-- The position of an element that is there. -/
theorem Prq.position_spec {element : α} (settled : prq.Settled elements)
    (there : element ∈ contents prq.size elements) :
    ∃ index, prq.position element = some index ∧ 1 ≤ index ∧ index ≤ prq.size ∧
      elements index = element := by
  obtain ⟨i, low, high, same⟩ := mem_contents.1 there
  by_cases callbacks : prq.callbacks = true
  · have index : prq.index element = i := by
      rw [← same, settled.indexed callbacks i low high]
    refine ⟨i, ?_, low, high, same⟩
    rw [Prq.position, if_pos callbacks, index, settled.cells i low high, same, if_pos rfl]
  · have found : (prq.position element).isSome := by
      rw [Prq.position, if_neg callbacks, List.find?_isSome]
      refine ⟨i, List.mem_range'_1.2 ⟨low, by omega⟩, ?_⟩
      rw [settled.cells i low high, same]
      exact decide_eq_true rfl
    obtain ⟨index, here⟩ := Option.isSome_iff_exists.1 found
    refine ⟨index, here, ?_⟩
    rw [Prq.position, if_neg callbacks] at here
    have inside := List.mem_range'_1.1 (List.mem_of_find?_eq_some here)
    have cell := List.find?_some here
    rw [decide_eq_true_eq, settled.cells index inside.1 (by omega), Option.some_inj] at cell
    exact ⟨inside.1, by omega, cell⟩

/-- The bottom element rises at the position of another one. -/
def Prq.Rises (prq : Prq α) (bottom : α) (index : Nat) : Prop :=
  ∃ parent, 1 < index ∧ prq.ith (index / 2) = some parent ∧ prq.Precedes bottom parent

/-- What a removal ends with, exactly where it has room. -/
theorem Prq.remove_correct [IsStrictWeakOrder α prq.Precedes] {index : Nat} {element : α}
    (settled : prq.Settled elements) (ordered : Ordered prq.Precedes prq.size elements)
    (position : prq.position element = some index) (low : 1 ≤ index) (high : index ≤ prq.size)
    (there : elements index = element) :
    ((index = prq.size ∨ prq.Rises (elements prq.size) index ∨
        prq.shrink.Rests (elements prq.size) index) →
      ∃ next, prq.remove element = some next ∧ prq.Grown next ∧
        next.Correct ((contents prq.size elements).erase element)) ∧
    (¬ (index = prq.size ∨ prq.Rises (elements prq.size) index ∨
        prq.shrink.Rests (elements prq.size) index) →
      prq.remove element = none) := by
  have unfolded : prq.remove element = if index = prq.size then some prq.shrink
    else
      (prq.shrink.setIth index (elements prq.size)).bind fun prq =>
        (prq.upheap index).bind fun moved =>
          if index = moved.2 then (moved.1.downheap index).bind fun moved =>
            some moved.1
          else some moved.1 := by
    rw [Prq.remove, if_pos (by omega), position, settled.cells prq.size (by omega) le_rfl]
    rfl
  rw [unfolded]
  by_cases bottom : index = prq.size
  · rw [if_pos bottom]
    refine ⟨fun _ => ⟨_, rfl, ⟨rfl, rfl, le_rfl⟩, Prq.correct_iff.2 ⟨elements, settled.shrink, ?_,
      ordered.shrink⟩⟩, fun wrong => absurd (Or.inl bottom) wrong⟩
    rw [← there, bottom]
    exact contents_shrink elements (by omega)
  · rw [if_neg bottom, or_iff_right bottom]
    obtain ⟨middle, stored, same, cells, placed, loose, held⟩ :=
      settled.refill ordered low (by omega)
    have order : IsStrictWeakOrder α middle.Precedes := by
      rw [same.precedes]
      assumption
    have size : middle.size = prq.size - 1 := same.size
    have inside : index ≤ middle.size := by omega
    have rises : 1 < index → (middle.Precedes
        (Function.update elements index (elements prq.size) index)
        (Function.update elements index (elements prq.size) (index / 2)) ↔
        prq.Rises (elements prq.size) index) := by
      intro deep
      rw [Function.update_self, Function.update_of_ne (by omega), same.precedes]
      constructor
      · exact fun before =>
          ⟨_, deep, settled.cells (index / 2) (by omega) (by omega), before⟩
      · rintro ⟨parent, -, cell, before⟩
        rw [settled.cells (index / 2) (by omega) (by omega), Option.some_inj] at cell
        rw [cell]
        exact before
    rw [stored]
    show (_ → ∃ next, (middle.upheap index).bind _ = _ ∧ _) ∧
      (_ → (middle.upheap index).bind _ = none)
    by_cases up : prq.Rises (elements prq.size) index
    · have deep : 1 < index := up.choose_spec.1
      obtain ⟨final, last, others, ran, kept, done, both, heap, less⟩ :=
        Prq.upheap_ordered placed low inside (loose.rising deep ((rises deep).2 up))
      have moved : ¬ index = last := by
        have := less deep ((rises deep).2 up)
        omega
      refine ⟨fun _ => ⟨final, ?_, Prq.shrink_grown (same.trans kept),
        Prq.correct_iff.2 ⟨others, done, ?_, ?_⟩⟩,
        fun wrong => absurd (Or.inl up) wrong⟩
      · rw [ran]
        exact if_neg moved
      · rw [kept.size, both, held, there]
      · rw [kept.size, kept.precedes]
        exact heap
    · rw [or_iff_right up]
      have stays : 1 < index → ¬ middle.Precedes
          (Function.update elements index (elements prq.size) index)
          (Function.update elements index (elements prq.size) (index / 2)) :=
        fun deep before => up ((rises deep).1 before)
      obtain ⟨still, ran, kept, unmoved, again⟩ := Prq.upheap_stays placed low inside stays
      have stillOrder : IsStrictWeakOrder α still.Precedes := by
        rw [kept.precedes]
        exact order
      have sinking : Sinking still.Precedes still.size
          (Function.update elements index (elements prq.size)) index := by
        rw [kept.precedes, kept.size]
        exact ⟨loose, stays⟩
      have sift := Prq.downheap_ordered again low (kept.size.symm ▸ inside) sinking
      rw [Function.update_self, Prq.rests_iff kept unmoved low,
        Prq.rests_iff same cells low] at sift
      rw [ran]
      show (_ → ∃ next, (if index = index then _ else _) = _ ∧ _) ∧
        (_ → (if index = index then _ else _) = none)
      rw [if_pos rfl]
      constructor
      · intro rests
        obtain ⟨final, last, others, sunk, alike, done, both, heap⟩ := sift.1 rests
        refine ⟨final, ?_, Prq.shrink_grown ((same.trans kept).trans alike),
          Prq.correct_iff.2 ⟨others, done, ?_, ?_⟩⟩
        · rw [sunk]
          rfl
        · rw [alike.size, both, kept.size, held, there]
        · rw [alike.size, alike.precedes]
          exact heap
      · intro blocked
        rw [sift.2 blocked]
        rfl

/-! ## All calls -/

/-- A call is correct exactly where it has room. -/
theorem Operation.perform_correct [IsStrictWeakOrder α prq.Precedes]
    {held : Multiset α} {operation : Operation α} (correct : prq.Correct held)
    (allowed : operation.Allowed held) :
    (operation.Room prq held →
      ∃ next result, operation.perform prq = some (next, result) ∧
        operation.Answers prq.Precedes held result ∧
        prq.Grown next ∧ next.Correct (operation.after result held)) ∧
    (¬ operation.Room prq held →
      ∀ next result, operation.perform prq = some (next, result) →
        ¬ next.Correct (operation.after result held)) := by
  obtain ⟨elements, settled, same, ordered⟩ := Prq.correct_iff.1 correct
  have topLeast : 0 < prq.size → ∃ top ∈ held, some (elements 1) = some top ∧
      ∀ element ∈ held, ¬ prq.Precedes element top := by
    intro positive
    refine ⟨elements 1, same ▸ mem_contents.2 ⟨1, le_rfl, positive, rfl⟩, rfl, ?_⟩
    intro element member
    obtain ⟨i, low, high, rfl⟩ := mem_contents.1 (same ▸ member)
    exact ordered.not_precedes_top low high
  cases operation with
  | insert element =>
      constructor
      · intro room
        obtain ⟨next, ran, kept, after⟩ := Prq.insert_correct correct element room.1 room.2
        exact ⟨next, none, congrArg (Option.map _) ran, rfl, kept, after⟩
      · intro wrong next result ran
        obtain ⟨final, inserted, same⟩ := Option.map_eq_some_iff.1 ran
        cases same
        exact Prq.insert_incorrect wrong inserted
  | deleteTop =>
      have positive : 0 < prq.size := (contents_ne_zero_iff prq.size elements).1 (same ▸ allowed)
      have roomIff : Operation.Room .deleteTop prq held ↔
          (prq.size = 1 ∨ prq.shrink.Rests (elements prq.size) 1) := by
        apply or_congr_right
        rw [settled.cells prq.size positive le_rfl]
        exact ⟨fun ⟨_, same, rests⟩ => (Option.some_inj.1 same) ▸ rests,
          fun rests => ⟨_, rfl, rests⟩⟩
      have deletion := Prq.deleteTop_correct settled ordered positive
      rw [← roomIff] at deletion
      constructor
      · intro room
        obtain ⟨next, ran, kept, after⟩ := deletion.1 room
        rw [same] at after
        exact ⟨next, some (elements 1), congrArg (Option.map _) ran, topLeast positive, kept, after⟩
      · intro wrong next result ran
        obtain ⟨final, ran, -⟩ := Option.map_eq_some_iff.1 ran
        rw [deletion.2 wrong] at ran
        cases ran
  | top =>
      have positive : 0 < prq.size := (contents_ne_zero_iff prq.size elements).1 (same ▸ allowed)
      refine ⟨fun _ => ⟨prq, some (elements 1), ?_, topLeast positive,
        ⟨rfl, rfl, le_rfl⟩, correct⟩,
        fun wrong => absurd trivial wrong⟩
      show (prq.top).map _ = _
      rw [Prq.top, if_pos positive, settled.cells 1 le_rfl positive]
      rfl
  | remove element =>
      obtain ⟨index, position, low, high, there⟩ := Prq.position_spec settled (same ▸ allowed)
      have roomIff : Operation.Room (.remove element) prq held ↔
          (index = prq.size ∨ prq.Rises (elements prq.size) index ∨
            prq.shrink.Rests (elements prq.size) index) := by
        show (∃ index, prq.position element = some index ∧ _) ↔ _
        rw [position, settled.cells prq.size (low.trans high) le_rfl]
        constructor
        · rintro ⟨other, found, room⟩
          cases found
          apply room.imp_right
          rintro ⟨bottom, bottomIs, rest⟩
          cases bottomIs
          exact rest
        · exact fun room => ⟨index, rfl, room.imp_right fun rest => ⟨_, rfl, rest⟩⟩
      have removal := Prq.remove_correct settled ordered position low high there
      rw [← roomIff, same] at removal
      constructor
      · intro room
        obtain ⟨next, ran, kept, after⟩ := removal.1 room
        exact ⟨next, none, congrArg (Option.map _) ran, rfl, kept, after⟩
      · intro wrong next result ran
        obtain ⟨final, ran, -⟩ := Option.map_eq_some_iff.1 ran
        rw [removal.2 wrong] at ran
        cases ran

/-- From a correct queue, a sequence is correct exactly where its calls have room. -/
theorem sound_iff_roomy [order : IsStrictWeakOrder α prq.Precedes] {held : Multiset α}
    (correct : prq.Correct held) (operations : List (Operation α)) :
    Sound prq held operations ↔ Roomy prq held operations := by
  induction operations generalizing prq held with
  | nil => exact iff_of_true correct trivial
  | cons operation operations ih =>
      show prq.Correct held ∧ _ ↔ _
      rw [and_iff_right correct]
      apply forall_congr'
      intro allowed
      have step := Operation.perform_correct correct allowed
      constructor
      · rintro ⟨next, result, ran, answers, rest⟩
        have after : next.Correct (operation.after result held) := by
          cases operations with
          | nil => exact rest
          | cons operation operations => exact rest.1
        have room : operation.Room prq held := by
          by_contra wrong
          exact step.2 wrong next result ran after
        refine ⟨room, fun other value again => ?_⟩
        rw [ran, Option.some_inj, Prod.mk.injEq] at again
        obtain ⟨rfl, rfl⟩ := again
        obtain ⟨third, last, same, -, kept, -⟩ := step.1 room
        rw [ran, Option.some_inj, Prod.mk.injEq] at same
        obtain ⟨rfl, rfl⟩ := same
        have : IsStrictWeakOrder α next.Precedes := by
          rw [kept.precedes]
          exact order
        exact (ih after).1 rest
      · rintro ⟨room, rest⟩
        obtain ⟨next, result, ran, answers, kept, after⟩ := step.1 room
        have : IsStrictWeakOrder α next.Precedes := by
          rw [kept.precedes]
          exact order
        exact ⟨next, result, ran, answers, (ih after).2 (rest next result ran)⟩

omit [DecidableEq α] in
/-- A new queue is correct, and empty. -/
theorem prqInitialize_correct
    [Inhabited α] (comparisonFn : α → α → Bool) (callbacks : Bool) (index : α → Nat)
    (initialSize expansionFactor : Int) :
    (prqInitialize comparisonFn callbacks index initialSize expansionFactor).Correct
      0 :=
  ⟨fun _ => default,
    fun _ low high => absurd (low.trans high) (Nat.not_succ_le_zero 0),
    Nat.zero_le _, rfl,
    fun _ low high => absurd (low.trans high) (Nat.not_succ_le_zero 1),
    fun _ _ low high => absurd (low.trans high) (Nat.not_succ_le_zero 0)⟩

/--
For every comparison that is a strict weak order, all sizes and factors, and all
calls: the queue is correct in every state, exactly where every call has room.
-/
theorem priorityQueue_sound_iff [Inhabited α] (comparisonFn : α → α → Bool)
    [order : IsStrictWeakOrder α fun first second => comparisonFn first second = true]
    (callbacks : Bool) (index : α → Nat) (initialSize expansionFactor : Int)
    (operations : List (Operation α)) :
    Sound (prqInitialize comparisonFn callbacks index initialSize expansionFactor) 0
        operations ↔
      Roomy (prqInitialize comparisonFn callbacks index initialSize expansionFactor) 0
        operations :=
  @sound_iff_roomy _ _ (prqInitialize comparisonFn callbacks index initialSize
    expansionFactor) order 0 (prqInitialize_correct comparisonFn callbacks index
      initialSize expansionFactor) operations

/-! ## Small queues -/

omit [DecidableEq α] in
/-- The path ends in time where the positions have doubles. -/
theorem Prq.rests_of_small [IsStrictWeakOrder α prq.Precedes] (settled : prq.Settled elements)
    (small : prq.size < 2 ^ 30) (element : α) {position : Nat} (low : 1 ≤ position)
    (high : position ≤ prq.size) :
    prq.Rests element position := by
  induction turns : prq.size - position using Nat.strong_induction_on generalizing position with
  | _ turns ih =>
      by_cases inside : position * 2 ≤ prq.size
      · obtain ⟨right, preceding, bound, -⟩ :=
          Prq.rightFirst_spec (settled.sifted low high) inside
        exact .goesOn (by omega) preceding (ih _ (by omega) (by omega) bound rfl)
      · exact .last (by omega) (by omega)

/-- A call has room where the vector has room for one more element. -/
theorem Operation.room_of_small [IsStrictWeakOrder α prq.Precedes]
    {held : Multiset α} {operation : Operation α} (correct : prq.Correct held)
    (allowed : operation.Allowed held) (plain : prq.callbacks = false)
    (more : prq.size < prq.allocatedSize) (small : prq.size < 2 ^ 30) :
    operation.Room prq held := by
  obtain ⟨elements, settled, same, -⟩ := Prq.correct_iff.1 correct
  have path : ∀ position, 1 ≤ position → position < prq.size →
      Prq.Rests prq.shrink (elements prq.size) position := by
    intro position low high
    have shrunk : prq.shrink.size = prq.size - 1 := rfl
    have order : IsStrictWeakOrder α prq.shrink.Precedes := by
      assumption
    exact Prq.rests_of_small settled.shrink (by omega) _ low (by omega)
  cases operation with
  | insert element =>
      exact ⟨fun full => absurd full more.ne, fun callbacks => by
        rw [plain] at callbacks
        cases callbacks⟩
  | deleteTop =>
      have positive : 0 < prq.size := (contents_ne_zero_iff prq.size elements).1 (same ▸ allowed)
      by_cases single : prq.size = 1
      · exact Or.inl single
      · exact Or.inr ⟨_, settled.cells _ positive le_rfl, path 1 le_rfl (by omega)⟩
  | top => exact trivial
  | remove element =>
      obtain ⟨index, position, low, high, -⟩ := Prq.position_spec settled (same ▸ allowed)
      refine ⟨index, position, ?_⟩
      by_cases bottom : index = prq.size
      · exact Or.inl bottom
      · exact Or.inr ⟨_, settled.cells _ (low.trans high) le_rfl,
          Or.inr (path index low (by omega))⟩

omit [DecidableEq α] in
theorem card_contents (size : Nat) (elements : Nat → α) : (contents size elements).card = size := by
  induction size with
  | zero => rfl
  | succ size ih =>
      rw [contents_succ, Multiset.card_cons, ih]

omit [DecidableEq α] in
theorem Prq.Correct.size {held : Multiset α} (correct : prq.Correct held) :
    prq.size = held.card := by
  obtain ⟨elements, -, same, -⟩ := Prq.correct_iff.1 correct
  rw [← same, card_contents]

/-- A call adds at most one element. -/
theorem Operation.card_after (operation : Operation α) (result : Option α) (held : Multiset α) :
    (operation.after result held).card ≤ held.card + 1 := by
  cases operation with
  | insert element => exact (Multiset.card_cons element held).le
  | deleteTop =>
      cases result with
      | none => exact Nat.le_succ _
      | some element => exact (Multiset.card_erase_le).trans (Nat.le_succ _)
  | top => exact Nat.le_succ _
  | remove element => exact (Multiset.card_erase_le).trans (Nat.le_succ _)

/-- As many calls as the vector has free cells have room. -/
theorem roomy_of_small [order : IsStrictWeakOrder α prq.Precedes]
    {held : Multiset α} {operations : List (Operation α)} (correct : prq.Correct held)
    (plain : prq.callbacks = false) (more : held.card + operations.length ≤ prq.allocatedSize)
    (small : held.card + operations.length ≤ 2 ^ 30) :
    Roomy prq held operations := by
  induction operations generalizing prq held with
  | nil => exact trivial
  | cons operation operations ih =>
      intro allowed
      rw [List.length_cons] at more small
      have size := correct.size
      have room : operation.Room prq held :=
        Operation.room_of_small correct allowed plain (by omega) (by omega)
      obtain ⟨next, result, ran, -, kept, after⟩ :=
        (Operation.perform_correct correct allowed).1 room
      refine ⟨room, fun other value again => ?_⟩
      rw [ran, Option.some_inj, Prod.mk.injEq] at again
      obtain ⟨rfl, rfl⟩ := again
      have nextOrder : IsStrictWeakOrder α next.Precedes := by
        rw [kept.precedes]
        exact order
      have added := operation.card_after result held
      have larger := kept.allocatedSize
      exact ih after (kept.callbacks.trans plain) (by omega) (by omega)

/-- Two insertions, a removal and a deletion, in a vector of four numbers. -/
theorem priorityQueue_sound_numbers :
    Sound (prqInitialize (fun first second => decide (first < second)) false
      (fun _ => 0) 4 150) 0 [.insert 5, .insert 3, .remove 5, .deleteTop] := by
  have order : IsStrictWeakOrder Nat fun first second =>
      decide (first < second) = true := by
    simp only [decide_eq_true_eq]
    exact (isStrictWeakOrder_of_isOrderConnected : IsStrictWeakOrder Nat LT.lt)
  exact (priorityQueue_sound_iff _ false _ 4 150 _).2
    (@roomy_of_small _ _ _ order 0 _ (prqInitialize_correct _ _ _ _ _) rfl
      (by decide) (by decide))

/-! ## Lists of live ranges -/

/-- The loop of `Simplify` that pushes the live ranges of a queue on a list. -/
def Prq.simplify : Nat → Prq α → List α → Option (List α)
  | 0, prq, list => if prq.size = 0 then some list else none
  | turns + 1, prq, list =>
      if prq.size = 0 then
        some list
      else do
        let deleted ← prq.deleteTop
        Prq.simplify turns deleted.1 (deleted.2 :: list)

/-- Every live range is listed, and none precedes one that follows it. -/
theorem Prq.simplify_sorts [order : IsStrictWeakOrder α prq.Precedes] {held : Multiset α}
    (correct : prq.Correct held) (small : held.card ≤ 2 ^ 30) (list : List α) :
    ∃ ranges, prq.simplify held.card list = some (ranges ++ list) ∧ (ranges : Multiset α) = held ∧
      ranges.Pairwise fun first second => ¬ prq.Precedes first second := by
  induction count : held.card generalizing prq held list with
  | zero =>
      refine ⟨[], ?_, (Multiset.card_eq_zero.1 count).symm, .nil⟩
      exact if_pos (correct.size.trans count)
  | succ turns ih =>
      obtain ⟨elements, settled, -⟩ := Prq.correct_iff.1 correct
      have size : prq.size = turns + 1 := correct.size.trans count
      have room : Operation.Room .deleteTop prq held := by
        by_cases single : prq.size = 1
        · exact Or.inl single
        · have : IsStrictWeakOrder α prq.shrink.Precedes := order
          have shrunk : prq.shrink.size = prq.size - 1 := rfl
          exact Or.inr ⟨_, settled.cells _ (by omega) le_rfl,
            Prq.rests_of_small settled.shrink (by omega) _ le_rfl (by omega)⟩
      have allowed : Operation.Allowed .deleteTop held := Multiset.card_pos.1 (by omega)
      obtain ⟨next, result, ran, ⟨top, member, rfl, least⟩, kept, after⟩ :=
        (Operation.perform_correct correct allowed).1 room
      obtain ⟨⟨rest, lr⟩, popped, same⟩ := Option.map_eq_some_iff.1 ran
      cases same
      have fewer : (held.erase lr).card = turns := by
        rw [Multiset.card_erase_of_mem member, count]
        rfl
      have restOrder : IsStrictWeakOrder α rest.Precedes := by
        rw [kept.precedes]
        exact order
      obtain ⟨ranges, listed, both, sorted⟩ :=
        @ih rest restOrder (held.erase lr) after (by omega) (lr :: list) fewer
      rw [kept.precedes] at sorted
      refine ⟨ranges ++ [lr], ?_, ?_, List.pairwise_append.2
        ⟨sorted, List.pairwise_singleton _ _, fun first inside second last => ?_⟩⟩
      · rw [Prq.simplify, if_neg (by omega), popped, ← List.append_cons]
        exact listed
      · rw [← Multiset.coe_add, both, add_comm]
        exact Multiset.cons_erase member
      · rw [List.mem_singleton.1 last]
        exact least first (Multiset.mem_of_mem_erase (both ▸ Multiset.mem_coe.2 inside))

/-- A queue of two numbers. -/
def numbers : Prq Nat :=
  { prqInitialize (fun first second => decide (first < second)) false (fun _ => 0) 4 150 with
    size := 2
    heapVector := some }

theorem Prq.simplify_sorts_numbers :
    ∃ ranges, numbers.simplify 2 [7] = some (ranges ++ [7]) ∧ (ranges : Multiset Nat) = {1, 0} ∧
      ranges.Pairwise fun first second => ¬ numbers.Precedes first second := by
  have order : IsStrictWeakOrder Nat numbers.Precedes := by
    show IsStrictWeakOrder Nat fun first second => decide (first < second) = true
    simp only [decide_eq_true_eq]
    exact (isStrictWeakOrder_of_isOrderConnected : IsStrictWeakOrder Nat LT.lt)
  refine @Prq.simplify_sorts _ _ numbers order {1, 0} ⟨fun i => i - 1, fun i low _ => if_pos low,
    by decide, by decide, ?_, nofun⟩ (by decide) [7]
  intro i low high
  obtain rfl : i = 2 := le_antisymm high low
  exact Bool.false_ne_true

/-! ## Growth by a large factor -/

/-- Insertions up to the size of the vector, and one more. -/
theorem not_sound_of_wide {held : Multiset α} (element : α)
    (full : ¬ (prq.allocatedSize * prq.expansionFactor < 2 ^ 31))
    (inside : prq.size ≤ prq.allocatedSize) :
    ¬ Sound prq held (List.replicate (prq.allocatedSize - prq.size + 1) (.insert element)) := by
  induction free : prq.allocatedSize - prq.size generalizing prq held with
  | zero =>
      rintro ⟨-, step⟩
      obtain ⟨next, result, ran, -⟩ := step trivial
      obtain ⟨final, inserted, -⟩ := Option.map_eq_some_iff.1 ran
      obtain ⟨allocatedSize, grown, -⟩ := Prq.insert_same inserted
      have same : prq.size = prq.allocatedSize := by omega
      rw [Prq.grow, if_pos same, Prq.newSize_eq_none] at grown
      · cases grown
      · exact fun fits => full (same ▸ fits.1)
  | succ free ih =>
      rintro ⟨-, step⟩
      obtain ⟨next, result, ran, -, rest⟩ := step trivial
      obtain ⟨final, inserted, same⟩ := Option.map_eq_some_iff.1 ran
      cases same
      obtain ⟨allocatedSize, grown, kept⟩ := Prq.insert_same inserted
      rw [Prq.grow, if_neg (by omega), Option.some_inj] at grown
      have size : next.size = prq.size + 1 := kept.size
      have allocated : next.allocatedSize = prq.allocatedSize := by
        rw [kept.allocatedSize]
        exact (congrArg Prq.allocatedSize grown).symm
      have factor : next.expansionFactor = prq.expansionFactor := kept.expansionFactor
      refine ih ?_ (by omega) (by omega) rest
      rw [allocated, factor]
      exact full

/-- The vector of two hundred elements grows by a factor of twenty millions. -/
theorem priorityQueue_not_sound :
    ¬ Sound (prqInitialize (fun first second : Nat => decide (first < second)) false
      (fun _ => 0) 200 20000000) 0 (List.replicate 201 (.insert 7)) :=
  not_sound_of_wide 7 (by decide) (by decide)

end OpenUH.Common.PriorityQueue
