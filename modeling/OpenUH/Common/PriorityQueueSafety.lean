import OpenUH.Common.PriorityQueue

/-!
# The heap and the positions of a priority queue

While an element is sifted its cell holds another one.  The tree with the element
in that cell is the same multiset in every turn, and all other elements know their
positions.
-/

namespace OpenUH.Common.PriorityQueue

open Foundation.BinaryHeap

variable {α : Type} {prq next : Prq α} {elements : Nat → α} {hole : Nat}

/-! ## Cells -/

theorem Prq.ith_of_pos (prq : Prq α) {i : Nat} (low : 1 ≤ i) : prq.ith i = prq.heapVector (i - 1) :=
  if_pos low

/-- The fields that sifting leaves alone. -/
structure Prq.Same (prq next : Prq α) : Prop where
  comparisonFn : next.comparisonFn = prq.comparisonFn
  size : next.size = prq.size
  allocatedSize : next.allocatedSize = prq.allocatedSize
  expansionFactor : next.expansionFactor = prq.expansionFactor
  callbacks : next.callbacks = prq.callbacks

theorem Prq.Same.refl (prq : Prq α) : prq.Same prq :=
  ⟨rfl, rfl, rfl, rfl, rfl⟩

theorem Prq.Same.trans {first second third : Prq α} (left : first.Same second)
    (right : second.Same third) :
    first.Same third where
  comparisonFn := right.comparisonFn.trans left.comparisonFn
  size := right.size.trans left.size
  allocatedSize := right.allocatedSize.trans left.allocatedSize
  expansionFactor := right.expansionFactor.trans left.expansionFactor
  callbacks := right.callbacks.trans left.callbacks

theorem Prq.Same.precedes (same : prq.Same next) : next.Precedes = prq.Precedes := by
  ext first second
  unfold Prq.Precedes
  rw [same.comparisonFn]

/-- The fields that all calls leave alone; the vector may grow. -/
structure Prq.Grown (prq next : Prq α) : Prop where
  comparisonFn : next.comparisonFn = prq.comparisonFn
  callbacks : next.callbacks = prq.callbacks
  allocatedSize : prq.allocatedSize ≤ next.allocatedSize

theorem Prq.Grown.precedes (grown : prq.Grown next) : next.Precedes = prq.Precedes := by
  ext first second
  unfold Prq.Precedes
  rw [grown.comparisonFn]

/-- A tree in the cells of a queue. -/
structure Prq.Settled (prq : Prq α) (elements : Nat → α) : Prop where
  cells : ∀ i, 1 ≤ i → i ≤ prq.size → prq.ith i = some (elements i)
  roomy : prq.size ≤ prq.allocatedSize
  indexed : prq.callbacks = true → Indexed prq.size elements prq.index

/-- A tree in the cells of a queue, apart from the cell of the sifted element. -/
structure Prq.Sifted (prq : Prq α) (elements : Nat → α) (hole : Nat) : Prop where
  low : 1 ≤ hole
  high : hole ≤ prq.size
  cells : ∀ i, 1 ≤ i → i ≤ prq.size → i ≠ hole → prq.ith i = some (elements i)
  roomy : prq.size ≤ prq.allocatedSize
  indexed : prq.callbacks = true → IndexedBut prq.size elements prq.index hole

theorem Prq.correct_iff {held : Multiset α} :
    prq.Correct held ↔
      ∃ elements, prq.Settled elements ∧ contents prq.size elements = held ∧
        Ordered prq.Precedes prq.size elements := by
  constructor
  · rintro ⟨elements, cells, roomy, same, ordered, indexed⟩
    exact ⟨elements, ⟨cells, roomy, indexed⟩, same, ordered⟩
  · rintro ⟨elements, settled, same, ordered⟩
    exact ⟨elements, settled.cells, settled.roomy, same, ordered, settled.indexed⟩

/-- The sift may begin at any element. -/
theorem Prq.Settled.sifted (settled : prq.Settled elements) (low : 1 ≤ hole)
    (high : hole ≤ prq.size) :
    prq.Sifted elements hole where
  low := low
  high := high
  cells i lower higher _ := settled.cells i lower higher
  roomy := settled.roomy
  indexed callbacks i lower higher away :=
    ⟨settled.indexed callbacks i lower higher, fun same =>
      away ((settled.indexed callbacks).injective lower higher low high same)⟩

variable [DecidableEq α]

/-- A store in the vector. -/
theorem Prq.setIth_spec (prq : Prq α) {i : Nat} (element : α) (low : 1 ≤ i)
    (high : i ≤ prq.allocatedSize) :
    ∃ next, prq.setIth i element = some next ∧ prq.Same next ∧
      next.ith i = some element ∧
      (∀ other, 1 ≤ other → other ≠ i → next.ith other = prq.ith other) ∧
      (prq.callbacks = true → next.index = Function.update prq.index element i) := by
  refine ⟨_, if_pos ⟨low, high⟩, ⟨rfl, rfl, rfl, rfl, rfl⟩, ?_, ?_, ?_⟩
  · rw [Prq.ith_of_pos _ low]
    exact Function.update_self _ _ _
  · intro other lower away
    rw [Prq.ith_of_pos _ lower, Prq.ith_of_pos _ lower]
    exact Function.update_of_ne (by omega) _ _
  · intro callbacks
    exact if_pos callbacks

section

variable (sifted : prq.Sifted elements hole)

include sifted

/-- One turn: the element at another position comes to the cell of the sifted one. -/
theorem Prq.Sifted.move {position : Nat} (low : 1 ≤ position)
    (high : position ≤ prq.size) (differs : position ≠ hole) :
    ∃ next, prq.setIth hole (elements position) = some next ∧ prq.Same next ∧
      (∀ other, 1 ≤ other → other ≠ hole → next.ith other = prq.ith other) ∧
      next.Sifted (elements ∘ Equiv.swap hole position) position := by
  obtain ⟨next, stored, same, cell, others, index⟩ :=
    prq.setIth_spec (elements position) sifted.low (sifted.high.trans sifted.roomy)
  refine ⟨next, stored, same, others, low, ?_, ?_, ?_, ?_⟩
  · rw [same.size]
    exact high
  · intro i lower higher away
    rw [same.size] at higher
    by_cases here : i = hole
    · rw [here, cell, Function.comp_apply, Equiv.swap_apply_left]
    · rw [others i lower here, sifted.cells i lower higher here, Function.comp_apply,
        Equiv.swap_apply_of_ne_of_ne here away]
  · rw [same.size, same.allocatedSize]
    exact sifted.roomy
  · intro callbacks
    rw [same.callbacks] at callbacks
    rw [same.size, index callbacks]
    exact (sifted.indexed callbacks).move low high differs

/-- The delayed store. -/
theorem Prq.Sifted.finish :
    ∃ next, prq.setIth hole (elements hole) = some next ∧ prq.Same next ∧
      (∀ other, 1 ≤ other → other ≠ hole → next.ith other = prq.ith other) ∧
      next.Settled elements := by
  obtain ⟨next, stored, same, cell, others, index⟩ :=
    prq.setIth_spec (elements hole) sifted.low (sifted.high.trans sifted.roomy)
  refine ⟨next, stored, same, others, ?_, ?_, ?_⟩
  · intro i lower higher
    rw [same.size] at higher
    by_cases here : i = hole
    · rw [here, cell]
    · rw [others i lower here, sifted.cells i lower higher here]
  · rw [same.size, same.allocatedSize]
    exact sifted.roomy
  · intro callbacks
    rw [same.callbacks] at callbacks
    rw [same.size, index callbacks]
    exact (sifted.indexed callbacks).finish

/-! ## Sifting up -/

/-- An element that does not precede its parent stays. -/
theorem Prq.upheapLoop_stays
    (stays : 1 < hole → ¬ prq.Precedes (elements hole) (elements (hole / 2))) :
    Prq.upheapLoop (elements hole) hole prq = some (prq, hole) := by
  have high := sifted.high
  rw [Prq.upheapLoop]
  split
  case isTrue low =>
    rw [sifted.cells (hole / 2) (by omega) (by omega) (by omega)]
    exact if_neg (stays low)
  case isFalse top => rfl

/-- One turn of the sift up. -/
theorem Prq.upheapLoop_rises (low : 1 < hole)
    (before : prq.Precedes (elements hole) (elements (hole / 2))) :
    ∃ next, prq.Same next ∧
      next.Sifted (elements ∘ Equiv.swap hole (hole / 2)) (hole / 2) ∧
      Prq.upheapLoop (elements hole) hole prq = Prq.upheapLoop (elements hole) (hole / 2) next := by
  have high := sifted.high
  obtain ⟨next, stored, same, -, moved⟩ :=
    sifted.move (show 1 ≤ hole / 2 by omega) (by omega) (by omega)
  refine ⟨next, same, moved, ?_⟩
  rw [Prq.upheapLoop, if_pos low, sifted.cells (hole / 2) (by omega) (by omega) (by omega)]
  show (if prq.comparisonFn (elements hole) (elements (hole / 2)) = true then _
    else _) = _
  have compared : prq.comparisonFn (elements hole) (elements (hole / 2)) = true := before
  rw [if_pos compared, stored]
  rfl

end

/-- The sift up ends with a heap. -/
theorem Prq.upheapLoop_ordered [IsStrictWeakOrder α prq.Precedes]
    (sifted : prq.Sifted elements hole) (rising : Rising prq.Precedes prq.size elements hole) :
    ∃ next last others, Prq.upheapLoop (elements hole) hole prq = some (next, last) ∧
      prq.Same next ∧ next.Sifted others last ∧ others last = elements hole ∧
      contents prq.size others = contents prq.size elements ∧
      Ordered prq.Precedes prq.size others ∧ last ≤ hole ∧
      (1 < hole → prq.Precedes (elements hole) (elements (hole / 2)) → last < hole) := by
  induction hole using Nat.strong_induction_on generalizing prq elements with
  | _ hole ih =>
      have low := sifted.low
      have high := sifted.high
      by_cases rises : 1 < hole ∧ prq.Precedes (elements hole) (elements (hole / 2))
      · obtain ⟨next, same, moved, loop⟩ := Prq.upheapLoop_rises sifted rises.1 rises.2
        have order : IsStrictWeakOrder α next.Precedes := by
          rw [same.precedes]
          infer_instance
        have nextRising := rising.move rises.1 high rises.2
        rw [← same.precedes, ← same.size] at nextRising
        obtain ⟨final, last, others, ran, kept, settled, there, held, ordered,
            less, -⟩ := ih (hole / 2) (by omega) moved nextRising
        rw [Function.comp_apply, Equiv.swap_apply_right] at ran there
        rw [same.precedes, same.size] at ordered
        rw [same.size, contents_swap elements low high (by omega) (by omega)] at held
        exact ⟨final, last, others, loop.trans ran, same.trans kept, settled, there,
          held, ordered, by omega, fun _ _ => by omega⟩
      · refine ⟨prq, hole, elements, Prq.upheapLoop_stays sifted ?_, .refl prq, sifted,
          rfl, rfl, rising.finish ?_ rising.below, le_rfl, ?_⟩
        · exact fun above before => rises ⟨above, before⟩
        · exact fun above before => rises ⟨above, before⟩
        · exact fun above before => absurd ⟨above, before⟩ rises

/-- `PRQ_Upheap` of an element that does not precede its parent. -/
theorem Prq.upheap_stays (settled : prq.Settled elements) (low : 1 ≤ hole) (high : hole ≤ prq.size)
    (stays : 1 < hole → ¬ prq.Precedes (elements hole) (elements (hole / 2))) :
    ∃ next, prq.upheap hole = some (next, hole) ∧ prq.Same next ∧
      (∀ other, 1 ≤ other → other ≠ hole → next.ith other = prq.ith other) ∧
      next.Settled elements := by
  have sifted := settled.sifted low high
  obtain ⟨next, stored, same, cells, done⟩ := sifted.finish
  refine ⟨next, ?_, same, cells, done⟩
  rw [Prq.upheap, if_pos ⟨low, high⟩, settled.cells hole low high]
  show (Prq.upheapLoop (elements hole) hole prq >>= _) = _
  rw [Prq.upheapLoop_stays sifted stays]
  show (prq.setIth hole (elements hole) >>= _) = _
  rw [stored]
  rfl

/-- `PRQ_Upheap` of an element that is not below its place. -/
theorem Prq.upheap_ordered [IsStrictWeakOrder α prq.Precedes] (settled : prq.Settled elements)
    (low : 1 ≤ hole) (high : hole ≤ prq.size)
    (rising : Rising prq.Precedes prq.size elements hole) :
    ∃ next last others, prq.upheap hole = some (next, last) ∧ prq.Same next ∧
      next.Settled others ∧
      contents prq.size others = contents prq.size elements ∧
      Ordered prq.Precedes prq.size others ∧
      (1 < hole → prq.Precedes (elements hole) (elements (hole / 2)) → last < hole) := by
  have sifted := settled.sifted low high
  obtain ⟨middle, last, others, ran, kept, moved, there, held, ordered, -, less⟩ :=
    Prq.upheapLoop_ordered sifted rising
  obtain ⟨next, stored, same, -, done⟩ := moved.finish
  refine ⟨next, last, others, ?_, kept.trans same, done, held, ordered, less⟩
  rw [Prq.upheap, if_pos ⟨low, high⟩, settled.cells hole low high]
  show (Prq.upheapLoop (elements hole) hole prq >>= _) = _
  rw [ran]
  show (middle.setIth last (elements hole) >>= _) = _
  rw [← there, stored]
  rfl

/-! ## Sifting down -/

omit [DecidableEq α] in
/-- The child that the other one does not precede. -/
theorem Prq.rightFirst_spec [IsStrictWeakOrder α prq.Precedes] (sifted : prq.Sifted elements hole)
    (inside : hole * 2 ≤ prq.size) :
    ∃ right, prq.rightFirst (hole * 2) = some right ∧
      hole * 2 + right.toNat ≤ prq.size ∧
      ∀ i, 2 ≤ i → i ≤ prq.size → i / 2 = hole →
        ¬ prq.Precedes (elements i) (elements (hole * 2 + right.toNat)) := by
  have low := sifted.low
  have left := sifted.cells (hole * 2) (by omega) inside (by omega)
  unfold Prq.rightFirst
  rw [left]
  show ∃ right, (if hole * 2 + 1 ≤ prq.size then _ else _) = _ ∧ _
  split
  case isTrue both =>
    rw [sifted.cells (hole * 2 + 1) (by omega) both (by omega)]
    refine ⟨_, rfl, ?_, ?_⟩
    · cases prq.comparisonFn (elements (hole * 2 + 1)) (elements (hole * 2))
      · exact inside
      · exact both
    · intro i lower higher child
      have isChild : i = hole * 2 ∨ i = hole * 2 + 1 := by omega
      by_cases before : prq.Precedes (elements (hole * 2 + 1)) (elements (hole * 2))
      · have right : prq.comparisonFn (elements (hole * 2 + 1))
          (elements (hole * 2)) = true := before
        rw [right]
        rcases isChild with rfl | rfl
        · exact asymm before
        · exact irrefl _
      · have noRight : prq.comparisonFn (elements (hole * 2 + 1))
          (elements (hole * 2)) = false := eq_false_of_ne_true before
        rw [noRight]
        rcases isChild with rfl | rfl
        · exact irrefl _
        · exact before
  case isFalse single =>
    refine ⟨false, rfl, inside, ?_⟩
    intro i lower higher child
    have isLeft : i = hole * 2 := by omega
    rw [isLeft]
    exact irrefl _

omit [DecidableEq α] in
/-- The path of the preceding children depends on the cells below only. -/
theorem Prq.Rests.congr {element : α} {index : Nat} (rests : prq.Rests element index)
    (same : prq.Same next) (cells : ∀ i, index < i → next.ith i = prq.ith i) (low : 1 ≤ index) :
    next.Rests element index := by
  have path : ∀ {index : Nat}, 1 ≤ index → (∀ i, index < i → next.ith i = prq.ith i) →
      next.rightFirst (index * 2) = prq.rightFirst (index * 2) := by
    intro index low cells
    unfold Prq.rightFirst
    rw [cells _ (by omega), cells _ (by omega), same.size, same.comparisonFn]
  induction rests with
  | last fits childless => exact .last fits (same.size ▸ childless)
  | stops fits preceding there inOrder =>
      refine .stops fits ((path low cells).trans preceding) ((cells _ (by omega)).trans there) ?_
      rw [same.precedes]
      exact inOrder
  | goesOn fits preceding below ih =>
      refine .goesOn fits ((path low cells).trans preceding)
        (ih (fun i deeper => cells i (by omega)) (by omega))

/-- One turn of the sift down. -/
theorem Prq.downheapLoop_sinks {right : Bool} (sifted : prq.Sifted elements hole)
    (fits : hole < 2 ^ 30) (preceding : prq.rightFirst (hole * 2) = some right)
    (inside : hole * 2 + right.toNat ≤ prq.size)
    (before : prq.Precedes (elements (hole * 2 + right.toNat)) (elements hole)) :
    ∃ next, prq.Same next ∧
      (∀ i, 1 ≤ i → i ≠ hole → next.ith i = prq.ith i) ∧
      next.Sifted (elements ∘ Equiv.swap hole (hole * 2 + right.toNat)) (hole * 2 + right.toNat) ∧
      Prq.downheapLoop (elements hole) hole prq =
        Prq.downheapLoop (elements hole) (hole * 2 + right.toNat) next := by
  have low := sifted.low
  obtain ⟨next, stored, same, cells, moved⟩ :=
    sifted.move (show 1 ≤ hole * 2 + right.toNat by omega) inside (by omega)
  refine ⟨next, same, cells, moved, ?_⟩
  have compared : prq.comparisonFn (elements (hole * 2 + right.toNat))
    (elements hole) = true := before
  rw [Prq.downheapLoop, if_pos ⟨low, by omega⟩, if_neg (by omega), preceding]
  show (prq.ith (hole * 2 + right.toNat) >>= _) = _
  rw [sifted.cells _ (by omega) inside (by omega)]
  show (if prq.comparisonFn (elements (hole * 2 + right.toNat)) (elements hole) = true
    then _ else _) = _
  rw [if_pos compared, stored]
  rfl

/-- An element that its children do not precede stays. -/
theorem Prq.downheapLoop_stays {right : Bool} (sifted : prq.Sifted elements hole)
    (fits : hole < 2 ^ 30) (preceding : prq.rightFirst (hole * 2) = some right)
    (inside : hole * 2 + right.toNat ≤ prq.size)
    (stays : ¬ prq.Precedes (elements (hole * 2 + right.toNat)) (elements hole)) :
    Prq.downheapLoop (elements hole) hole prq = some (prq, hole) := by
  have low := sifted.low
  rw [Prq.downheapLoop, if_pos ⟨low, by omega⟩, if_neg (by omega), preceding]
  show (prq.ith (hole * 2 + right.toNat) >>= _) = _
  rw [sifted.cells _ (by omega) inside (by omega)]
  exact if_neg stays

omit [DecidableEq α] in
theorem Prq.Rests.fits {element : α} {index : Nat} (rests : prq.Rests element index) :
    index < 2 ^ 30 := by
  cases rests <;> assumption

omit [DecidableEq α] in
/-- The sift down goes on where the path does. -/
theorem Prq.rests_child_iff {right : Bool} (sifted : prq.Sifted elements hole)
    (fits : hole < 2 ^ 30) (preceding : prq.rightFirst (hole * 2) = some right)
    (inside : hole * 2 + right.toNat ≤ prq.size)
    (before : prq.Precedes (elements (hole * 2 + right.toNat)) (elements hole))
    (same : prq.Same next) (cells : ∀ i, 1 ≤ i → i ≠ hole → next.ith i = prq.ith i) :
    next.Rests (elements hole) (hole * 2 + right.toNat) ↔ prq.Rests (elements hole) hole := by
  have low := sifted.low
  have back : next.Same prq := ⟨same.comparisonFn.symm, same.size.symm,
    same.allocatedSize.symm, same.expansionFactor.symm, same.callbacks.symm⟩
  constructor
  · intro rests
    exact .goesOn fits preceding (rests.congr back
      (fun i deeper => (cells i (by omega) (by omega)).symm) (by omega))
  · intro rests
    cases rests with
    | last _ childless => omega
    | stops _ other there inOrder =>
        rw [preceding, Option.some_inj] at other
        rw [← other, sifted.cells _ (by omega) inside (by omega), Option.some_inj] at there
        exact absurd (there ▸ before) inOrder
    | goesOn _ other below =>
        rw [preceding, Option.some_inj] at other
        rw [← other] at below
        exact below.congr same (fun i deeper => cells i (by omega) (by omega)) (by omega)

/-- The sift down ends with a heap, exactly where the element comes to rest in time. -/
theorem Prq.downheapLoop_ordered [IsStrictWeakOrder α prq.Precedes]
    (sifted : prq.Sifted elements hole) (sinking : Sinking prq.Precedes prq.size elements hole) :
    (prq.Rests (elements hole) hole →
      ∃ next last others,
        Prq.downheapLoop (elements hole) hole prq = some (next, last) ∧
          prq.Same next ∧ next.Sifted others last ∧ others last = elements hole ∧
          contents prq.size others = contents prq.size elements ∧
          Ordered prq.Precedes prq.size others) ∧
    (¬ prq.Rests (elements hole) hole → Prq.downheapLoop (elements hole) hole prq = none) := by
  induction turns : prq.size - hole using Nat.strong_induction_on
    generalizing prq elements hole with
  | _ turns ih =>
      have low := sifted.low
      by_cases fits : hole < 2 ^ 30
      · by_cases inside : hole * 2 ≤ prq.size
        · obtain ⟨right, preceding, bound, least⟩ := Prq.rightFirst_spec sifted inside
          by_cases before : prq.Precedes (elements (hole * 2 + right.toNat)) (elements hole)
          · obtain ⟨next, same, cells, moved, loop⟩ :=
              Prq.downheapLoop_sinks sifted fits preceding bound before
            have order : IsStrictWeakOrder α next.Precedes := by
              rw [same.precedes]
              infer_instance
            have half : (hole * 2 + right.toNat) / 2 = hole := by
              have := right.toNat_le
              omega
            have nextSinking := sinking.move (by omega) bound half least before
            rw [← same.precedes, ← same.size] at nextSinking
            have rest := ih _ (by rw [same.size]; omega) moved nextSinking rfl
            rw [Function.comp_apply, Equiv.swap_apply_right,
              Prq.rests_child_iff sifted fits preceding bound before same cells,
              same.precedes, same.size, contents_swap elements low sifted.high
                (by omega) bound, ← loop] at rest
            refine ⟨fun rests => ?_, rest.2⟩
            obtain ⟨final, last, others, ran, kept, done⟩ := rest.1 rests
            exact ⟨final, last, others, ran, same.trans kept, done⟩
          · refine ⟨fun _ => ⟨prq, hole, elements,
              Prq.downheapLoop_stays sifted fits preceding bound before, .refl prq,
              sifted, rfl, rfl, sinking.finish sinking.above ?_⟩, fun blocked => ?_⟩
            · intro i lower higher child first
              have apart := least i lower higher child
              exact before (by
                by_contra outside
                exact not_precedes_trans apart outside first)
            · exact absurd (.stops fits preceding
                (sifted.cells _ (by omega) bound (by omega)) before) blocked
        · refine ⟨fun _ => ⟨prq, hole, elements, ?_, .refl prq, sifted, rfl, rfl,
            sinking.finish sinking.above fun i lower higher child => by omega⟩,
            fun blocked => absurd (.last fits (by omega)) blocked⟩
          rw [Prq.downheapLoop, if_pos ⟨low, by omega⟩, if_pos (by omega)]
      · refine ⟨fun rests => absurd rests.fits fits, fun _ => ?_⟩
        rw [Prq.downheapLoop, if_neg (by omega)]

/-- `PRQ_Downheap` of an element that is not above its place. -/
theorem Prq.downheap_ordered [IsStrictWeakOrder α prq.Precedes] (settled : prq.Settled elements)
    (low : 1 ≤ hole) (high : hole ≤ prq.size)
    (sinking : Sinking prq.Precedes prq.size elements hole) :
    (prq.Rests (elements hole) hole →
      ∃ next last others, prq.downheap hole = some (next, last) ∧
        prq.Same next ∧ next.Settled others ∧
        contents prq.size others = contents prq.size elements ∧
        Ordered prq.Precedes prq.size others) ∧
    (¬ prq.Rests (elements hole) hole → prq.downheap hole = none) := by
  have sifted := settled.sifted low high
  have loop := Prq.downheapLoop_ordered sifted sinking
  rw [Prq.downheap, if_pos ⟨low, high⟩, settled.cells hole low high]
  show (_ → ∃ next last others,
    (Prq.downheapLoop (elements hole) hole prq >>= _) = _ ∧ _) ∧ (_ →
      (Prq.downheapLoop (elements hole) hole prq >>= _) = none)
  constructor
  · intro rests
    obtain ⟨middle, last, others, ran, kept, moved, there, held, ordered⟩ := loop.1 rests
    obtain ⟨next, stored, same, -, done⟩ := moved.finish
    refine ⟨next, last, others, ?_, kept.trans same, done, held, ordered⟩
    rw [ran]
    show (middle.setIth last (elements hole) >>= _) = _
    rw [← there, stored]
    rfl
  · intro blocked
    rw [loop.2 blocked]
    rfl

end OpenUH.Common.PriorityQueue
