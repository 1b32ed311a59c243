import OpenUH.Foundation.Fallible
import Mathlib.Data.List.Nodup

/-!
# Successors in duplicate-free lists

The shape a linked list has, apart from the memory it lives in: which element
follows which in a list without duplicates.  A link field agrees with such a
list where it holds the successor; the rules below say what an edit of the
list does to its successors, and what a walk along a link field finds.
-/

namespace OpenUH.Foundation.Succession

universe u

variable {α : Type u} [DecidableEq α]

/-- The element that follows `element`. -/
def after : List α → α → Option α
  | [], _ => none
  | first :: rest, element =>
      if first = element then rest.head? else after rest element

/-- The element that precedes `element`. -/
def before (list : List α) (element : α) : Option α :=
  after list.reverse element

theorem after_eq_none_of_notMem {list : List α} {element : α}
    (absent : element ∉ list) : after list element = none := by
  induction list with
  | nil => rfl
  | cons first rest ih =>
      rw [List.mem_cons, not_or] at absent
      rw [after, if_neg (Ne.symm absent.1), ih absent.2]

theorem mem_of_after_eq_some {list : List α} {first second : α}
    (follows : after list first = some second) : first ∈ list := by
  by_contra absent
  rw [after_eq_none_of_notMem absent] at follows
  cases follows

theorem after_append_right {left right : List α} {element : α} (absent : element ∉ left) :
    after (left ++ right) element = after right element := by
  induction left with
  | nil => rfl
  | cons first rest ih =>
      rw [List.mem_cons, not_or] at absent
      rw [List.cons_append, after, if_neg (Ne.symm absent.1), ih absent.2]

theorem after_append_left {left right : List α} {element : α}
    (nodup : left.Nodup) (member : element ∈ left) :
    after (left ++ right) element =
      if left.getLast? = some element then
        right.head?
      else
        after left element := by
  induction left with
  | nil => cases member
  | cons first rest ih =>
      rw [List.nodup_cons] at nodup
      cases rest with
      | nil =>
          rw [List.mem_singleton] at member
          simp [after, member]
      | cons second rest =>
          rw [List.getLast?_cons_cons, List.cons_append, after, after]
          by_cases here : first = element
          · have notLast : (second :: rest).getLast? ≠ some element := by
              intro last
              exact nodup.1 (here ▸ List.mem_of_getLast? last)
            rw [if_pos here, if_pos here, if_neg notLast]
            rfl
          · have later : element ∈ second :: rest := by
              rcases List.mem_cons.mp member with same | later
              · exact absurd same.symm here
              · exact later
            rw [if_neg here, if_neg here]
            exact ih nodup.2 later

theorem after_middle {left right : List α} {element : α}
    (nodup : (left ++ element :: right).Nodup) :
    after (left ++ element :: right) element = right.head? := by
  have absent : element ∉ left := by
    intro member
    exact (List.nodup_append.mp nodup).2.2 element member element List.mem_cons_self rfl
  rw [after_append_right absent, after, if_pos rfl]

theorem before_middle {left right : List α} {element : α}
    (nodup : (left ++ element :: right).Nodup) :
    before (left ++ element :: right) element = left.getLast? := by
  have reversed :
      (left ++ element :: right).reverse = right.reverse ++ element :: left.reverse := by simp
  have nodupReversed : (right.reverse ++ element :: left.reverse).Nodup := by
    rw [← reversed]
    exact List.nodup_reverse.mpr nodup
  rw [before, reversed, after_middle nodupReversed, List.head?_reverse]

/-- One element precedes another exactly when the other follows it. -/
theorem before_eq_some_iff {list : List α} {first second : α} (nodup : list.Nodup) :
    before list second = some first ↔ after list first = some second := by
  constructor
  · intro precedes
    have member : second ∈ list := List.mem_reverse.mp (mem_of_after_eq_some precedes)
    obtain ⟨left, right, rfl⟩ := List.append_of_mem member
    rw [before_middle nodup] at precedes
    obtain ⟨initial, rfl⟩ := List.getLast?_eq_some_iff.mp precedes
    rw [List.append_assoc, List.singleton_append] at nodup ⊢
    rw [after_middle nodup]
    rfl
  · intro follows
    have member : first ∈ list := mem_of_after_eq_some follows
    obtain ⟨left, right, rfl⟩ := List.append_of_mem member
    rw [after_middle nodup] at follows
    cases right with
    | nil => cases follows
    | cons next rest =>
        cases follows
        have split : left ++ first :: second :: rest =
            (left ++ [first]) ++ second :: rest := by simp
        rw [split] at nodup ⊢
        rw [before_middle nodup, List.getLast?_append]
        rfl

/-! ## Link fields -/

/-- On the elements that satisfy `Trusted`, the link is the successor. -/
def Follows (Trusted : α → Prop) (link : α → Option α) (list : List α) : Prop :=
  ∀ element ∈ list, Trusted element → link element = after list element

/-- The same for a link to the predecessor. -/
def Precedes (Trusted : α → Prop) (link : α → Option α) (list : List α) : Prop :=
  ∀ element ∈ list, Trusted element → link element = before list element

theorem precedes_iff_follows_reverse {Trusted : α → Prop} {link : α → Option α} {list : List α} :
    Precedes Trusted link list ↔ Follows Trusted link list.reverse := by
  unfold Precedes Follows before
  simp

/--
A middle part of the list is replaced.  Outside it the new link is the old
one, except that the element in front of it links to what now comes next.
-/
theorem Follows.splice {Trusted Trusted' : α → Prop} {link link' : α → Option α}
    {front middle middle' rest : List α}
    (follows : Follows Trusted link (front ++ (middle ++ rest)))
    (nodup : (front ++ (middle ++ rest)).Nodup) (nodup' : (front ++ (middle' ++ rest)).Nodup)
    (inFront : ∀ element ∈ front, Trusted' element →
      if front.getLast? = some element then
        link' element = (middle' ++ rest).head?
      else
        Trusted element ∧ link' element = link element)
    (inMiddle : ∀ element ∈ middle', Trusted' element →
      link' element =
        if middle'.getLast? = some element then
          rest.head?
        else
          after middle' element)
    (inRest : ∀ element ∈ rest, Trusted' element → Trusted element ∧ link' element = link element) :
    Follows Trusted' link' (front ++ (middle' ++ rest)) := by
  have nodupFront : front.Nodup := (List.nodup_append.mp nodup').1
  have nodupMiddle : middle'.Nodup := (List.nodup_append.mp (List.nodup_append.mp nodup').2.1).1
  intro element member trusted
  by_cases isFront : element ∈ front
  · have here := inFront element isFront trusted
    rw [after_append_left nodupFront isFront]
    by_cases last : front.getLast? = some element
    · rw [if_pos last] at here ⊢
      exact here
    · rw [if_neg last] at here ⊢
      have old := follows element (List.mem_append_left _ isFront) here.1
      rw [after_append_left nodupFront isFront, if_neg last] at old
      exact here.2.trans old
  · rw [after_append_right isFront]
    by_cases isMiddle : element ∈ middle'
    · rw [after_append_left nodupMiddle isMiddle]
      exact inMiddle element isMiddle trusted
    · have isRest : element ∈ rest := by
        rcases List.mem_append.mp member with inFront' | inTail
        · exact absurd inFront' isFront
        · exact (List.mem_append.mp inTail).resolve_left isMiddle
      have here := inRest element isRest trusted
      have notMiddle : element ∉ middle := by
        intro inMiddle'
        exact (List.nodup_append.mp (List.nodup_append.mp nodup).2.1).2.2
          element inMiddle' element isRest rfl
      have old := follows element (List.mem_append_right _ (List.mem_append_right _ isRest)) here.1
      rw [after_append_right isFront, after_append_right notMiddle] at old
      rw [after_append_right isMiddle]
      exact here.2.trans old

/-- The mirror image of `Follows.splice`. -/
theorem Precedes.splice {Trusted Trusted' : α → Prop} {link link' : α → Option α}
    {front middle middle' rest : List α}
    (precedes : Precedes Trusted link (front ++ (middle ++ rest)))
    (nodup : (front ++ (middle ++ rest)).Nodup) (nodup' : (front ++ (middle' ++ rest)).Nodup)
    (inFront : ∀ element ∈ front, Trusted' element → Trusted element ∧ link' element = link element)
    (inMiddle : ∀ element ∈ middle', Trusted' element →
      link' element =
        if middle'.head? = some element then
          front.getLast?
        else
          before middle' element)
    (inRest : ∀ element ∈ rest, Trusted' element →
      if rest.head? = some element then
        link' element = (front ++ middle').getLast?
      else
        Trusted element ∧ link' element = link element) :
    Precedes Trusted' link' (front ++ (middle' ++ rest)) := by
  have reversed : ∀ part : List α,
      (front ++ (part ++ rest)).reverse = rest.reverse ++ (part.reverse ++ front.reverse) := by simp
  rw [precedes_iff_follows_reverse, reversed]
  rw [precedes_iff_follows_reverse, reversed] at precedes
  apply precedes.splice
  · rw [← reversed]
    exact List.nodup_reverse.mpr nodup
  · rw [← reversed]
    exact List.nodup_reverse.mpr nodup'
  · intro element member trusted
    have here := inRest element (List.mem_reverse.mp member) trusted
    rw [List.getLast?_reverse]
    rwa [← List.reverse_append, List.head?_reverse]
  · intro element member trusted
    have here := inMiddle element (List.mem_reverse.mp member) trusted
    rw [List.getLast?_reverse, List.head?_reverse]
    exact here
  · intro element member trusted
    exact inFront element (List.mem_reverse.mp member) trusted

/-! ## Relinking -/

/--
The links of a doubly linked list after a run between `front` and `rest` has
become `middle`, told by the links from before.
-/
structure Relinked (Trusted : α → Prop) (next prev next' prev' : α → Option α)
    (front middle rest : List α) : Prop where
  nextFront : ∀ element ∈ front, next' element =
    if front.getLast? = some element then
      (middle ++ rest).head?
    else
      next element
  nextMiddle : ∀ element ∈ middle, next' element =
    if middle.getLast? = some element then
      rest.head?
    else
      after middle element
  nextRest : ∀ element ∈ rest, next' element = next element
  prevFront : ∀ element ∈ front, prev' element = prev element
  prevMiddle : ∀ element ∈ middle, Trusted element → prev' element =
    if middle.head? = some element then
      front.getLast?
    else
      before middle element
  prevRest : ∀ element ∈ rest, Trusted element → prev' element =
    if rest.head? = some element then
      (front ++ middle).getLast?
    else
      prev element

namespace Relinked

variable {Trusted : α → Prop} {next prev next' prev' : α → Option α}
  {front middle middle' rest : List α}

theorem follows (relinked : Relinked Trusted next prev next' prev' front middle' rest)
    (old : Follows (fun _ => True) next (front ++ (middle ++ rest)))
    (nodup : (front ++ (middle ++ rest)).Nodup) (nodup' : (front ++ (middle' ++ rest)).Nodup) :
    Follows (fun _ => True) next' (front ++ (middle' ++ rest)) := by
  apply old.splice nodup nodup'
  · intro element member _
    have here := relinked.nextFront element member
    split <;> rename_i isLast
    · rw [here, if_pos isLast]
    · exact ⟨trivial, by rw [here, if_neg isLast]⟩
  · intro element member _
    exact relinked.nextMiddle element member
  · intro element member _
    exact ⟨trivial, relinked.nextRest element member⟩

theorem precedes {OldTrusted : α → Prop}
    (relinked : Relinked Trusted next prev next' prev' front middle' rest)
    (old : Precedes OldTrusted prev (front ++ (middle ++ rest)))
    (outside : ∀ element, element ∈ front ∨ element ∈ rest → Trusted element → OldTrusted element)
    (nodup : (front ++ (middle ++ rest)).Nodup) (nodup' : (front ++ (middle' ++ rest)).Nodup) :
    Precedes Trusted prev' (front ++ (middle' ++ rest)) := by
  apply old.splice nodup nodup'
  · intro element member trusted
    exact ⟨outside element (Or.inl member) trusted, relinked.prevFront element member⟩
  · exact relinked.prevMiddle
  · intro element member trusted
    have here := relinked.prevRest element member trusted
    split <;> rename_i isFirst
    · rw [here, if_pos isFirst]
    · exact ⟨outside element (Or.inr member) trusted,
        by rw [here, if_neg isFirst]⟩

/-- A run becomes a single element. -/
theorem single {element : α}
    (nextFront : ∀ other ∈ front, next' other =
      if front.getLast? = some other then some element else next other)
    (nextHere : next' element = rest.head?)
    (nextRest : ∀ other ∈ rest, next' other = next other)
    (prevFront : ∀ other ∈ front, prev' other = prev other)
    (prevHere : Trusted element → prev' element = front.getLast?)
    (prevRest : ∀ other ∈ rest, Trusted other → prev' other =
      if rest.head? = some other then some element else prev other) :
    Relinked Trusted next prev next' prev' front [element] rest where
  nextFront := nextFront
  nextMiddle := by simpa using nextHere
  nextRest := nextRest
  prevFront := prevFront
  prevMiddle := by simpa using prevHere
  prevRest := by simpa using prevRest

/-- A run becomes two elements. -/
theorem pair {element second : α} (different : element ≠ second)
    (nextFront : ∀ other ∈ front, next' other =
      if front.getLast? = some other then some element else next other)
    (nextHere : next' element = some second)
    (nextSecond : next' second = rest.head?)
    (nextRest : ∀ other ∈ rest, next' other = next other)
    (prevFront : ∀ other ∈ front, prev' other = prev other)
    (prevHere : Trusted element → prev' element = front.getLast?)
    (prevSecond : Trusted second → prev' second = some element)
    (prevRest : ∀ other ∈ rest, Trusted other → prev' other =
      if rest.head? = some other then some second else prev other) :
    Relinked Trusted next prev next' prev' front [element, second] rest where
  nextFront := nextFront
  nextMiddle := by
    intro other member
    rcases List.mem_pair.mp member with rfl | rfl
    · simp [after, different.symm, nextHere]
    · simp [nextSecond]
  nextRest := nextRest
  prevFront := prevFront
  prevMiddle := by
    intro other member trusted
    rcases List.mem_pair.mp member with rfl | rfl
    · simp [prevHere trusted]
    · simp [before, after, different, prevSecond trusted]
  prevRest := by simpa using prevRest

/-- A run goes away. -/
theorem gone
    (nextFront : ∀ other ∈ front, next' other =
      if front.getLast? = some other then rest.head? else next other)
    (nextRest : ∀ other ∈ rest, next' other = next other)
    (prevFront : ∀ other ∈ front, prev' other = prev other)
    (prevRest : ∀ other ∈ rest, Trusted other → prev' other =
      if rest.head? = some other then front.getLast? else prev other) :
    Relinked Trusted next prev next' prev' front [] rest where
  nextFront := nextFront
  nextMiddle := by simp
  nextRest := nextRest
  prevFront := prevFront
  prevMiddle := by simp
  prevRest := by simpa using prevRest

end Relinked

/-! ## Walks -/

/-- A walk that outlasts its fuel. -/
inductive Walk (β : Type u) where
  | done (result : β)
  | endless
deriving DecidableEq, Repr

/-- Follow the link to the last element. -/
def walkToEnd (link : α → Option α) : Nat → α → Walk α
  | 0, _ => .endless
  | fuel + 1, element =>
      match link element with
      | none => .done element
      | some next => walkToEnd link fuel next

/-- Follow the link to the first element that passes the test. -/
def walkFind (link : α → Option α) (test : α → Bool) :
    Nat → Option α → Walk (Option α)
  | _, none => .done none
  | 0, some _ => .endless
  | fuel + 1, some element =>
      if test element then
        .done (some element)
      else
        walkFind link test fuel (link element)

omit [DecidableEq α] in
/-- What the link leads to, and the start has, is true of what is found. -/
theorem walkFind_holds {link : α → Option α} {test : α → Bool} {Holds : α → Prop}
    (leads : ∀ element other, link element = some other → Holds other)
    {fuel : Nat} {start : Option α} (starts : ∀ element, start = some element → Holds element)
    {found : α} (finds : walkFind link test fuel start = .done (some found)) :
    Holds found ∧ test found = true := by
  induction fuel generalizing start with
  | zero =>
      cases start with
      | none | some => cases finds
  | succ fuel ih =>
      cases start with
      | none => cases finds
      | some element =>
          rw [walkFind] at finds
          split at finds
          · rename_i passes
            cases finds
            exact ⟨starts _ rfl, passes⟩
          · exact ih (leads element) finds

omit [DecidableEq α] in
theorem walkFind_passes {link : α → Option α} {test : α → Bool}
    {fuel : Nat} {start : Option α} {found : α}
    (finds : walkFind link test fuel start = .done (some found)) :
    test found = true := by
  have holds : True ∧ test found = true :=
    walkFind_holds (fun _ _ _ => trivial) (fun _ _ => trivial) finds
  exact holds.2

omit [DecidableEq α] in
/-- The same for the last element of a walk. -/
theorem walkToEnd_holds {link : α → Option α} {Holds : α → Prop}
    (leads : ∀ element other, link element = some other → Holds other)
    {fuel : Nat} {start last : α} (starts : Holds start)
    (ends : walkToEnd link fuel start = .done last) : Holds last := by
  induction fuel generalizing start with
  | zero => cases ends
  | succ fuel ih =>
      rw [walkToEnd] at ends
      split at ends
      · cases ends
        exact starts
      · rename_i next linked
        exact ih (leads _ _ linked) ends

/-- The elements whose link such a walk reads. -/
def passed (link : α → Option α) (test : α → Bool) :
    Nat → Option α → List α
  | _, none => []
  | 0, some _ => []
  | fuel + 1, some element =>
      if test element then
        []
      else
        element :: passed link test fuel (link element)

/-- A walk that reads only right links finds what the list holds. -/
theorem walkFind_eq {link : α → Option α} {test : α → Bool} {list : List α} (nodup : list.Nodup)
    {front rest : List α} (split : list = front ++ rest) {fuel : Nat} (enough : rest.length ≤ fuel)
    (right : ∀ element ∈ passed link test fuel rest.head?, link element = after list element) :
    walkFind link test fuel rest.head? = .done (rest.find? test) := by
  induction rest generalizing front fuel with
  | nil => simp [walkFind]
  | cons element rest ih =>
      cases fuel with
      | zero => simp at enough
      | succ fuel =>
          rw [List.head?_cons] at right ⊢
          rw [walkFind]
          by_cases found : test element = true
          · rw [if_pos found, List.find?_cons_of_pos found]
          · have next : link element = rest.head? := by
              rw [right element (by rw [passed, if_neg found]; simp), split]
              exact after_middle (split ▸ nodup)
            have splitNext : list = (front ++ [element]) ++ rest := by
              simp [split]
            rw [if_neg found, List.find?_cons_of_neg found, next]
            apply ih splitNext (Nat.le_of_succ_le_succ enough)
            intro other member
            apply right
            rw [passed, if_neg found, next]
            exact List.mem_cons_of_mem _ member

/-- Along right links such a walk stays in the list. -/
theorem mem_of_mem_passed {link : α → Option α} {test : α → Bool}
    {list : List α} (nodup : list.Nodup)
    (follows : ∀ element ∈ list, link element = after list element)
    {front rest : List α} (split : list = front ++ rest) {fuel : Nat} {element : α}
    (member : element ∈ passed link test fuel rest.head?) :
    element ∈ rest := by
  induction rest generalizing front fuel with
  | nil => simp [passed] at member
  | cons first rest ih =>
      cases fuel with
      | zero => simp [passed] at member
      | succ fuel =>
          have next : link first = rest.head? := by
            rw [follows first (by simp [split]), split]
            exact after_middle (split ▸ nodup)
          have splitNext : list = (front ++ [first]) ++ rest := by
            simp [split]
          rw [List.head?_cons, passed] at member
          split at member
          · cases member
          · rcases List.mem_cons.mp member with same | later
            · exact same ▸ List.mem_cons_self
            · rw [next] at later
              exact List.mem_cons_of_mem _ (ih splitNext later)

/-- A walk along right links finds what the list holds. -/
theorem walkFind_eq_of_follows {link : α → Option α} {test : α → Bool}
    {list : List α} (nodup : list.Nodup)
    (follows : ∀ element ∈ list, link element = after list element)
    {front rest : List α} (split : list = front ++ rest)
    {fuel : Nat} (enough : rest.length ≤ fuel) :
    walkFind link test fuel rest.head? = .done (rest.find? test) := by
  apply walkFind_eq nodup split enough
  intro element member
  apply follows
  rw [split]
  exact List.mem_append_right _ (mem_of_mem_passed nodup follows split member)

theorem walkToEnd_eq {link : α → Option α} {list : List α} (nodup : list.Nodup)
    (follows : ∀ element ∈ list, link element = after list element)
    {front rest : List α} {element : α} (split : list = front ++ element :: rest)
    {fuel : Nat} (enough : rest.length < fuel) :
    walkToEnd link fuel element = .done ((element :: rest).getLast (List.cons_ne_nil _ _)) := by
  induction rest generalizing front element fuel with
  | nil =>
      cases fuel with
      | zero => cases enough
      | succ fuel =>
          have next : link element = none := by
            rw [follows element (by simp [split]), split]
            exact after_middle (split ▸ nodup)
          simp [walkToEnd, next]
  | cons second rest ih =>
      cases fuel with
      | zero => cases enough
      | succ fuel =>
          have next : link element = some second := by
            rw [follows element (by simp [split]), split]
            exact after_middle (split ▸ nodup)
          have splitNext : list = (front ++ [element]) ++ second :: rest := by
            simp [split]
          rw [walkToEnd, next, List.getLast_cons_cons]
          exact ih splitNext (Nat.lt_of_succ_lt_succ enough)

/-- From any element, right links lead to the last one. -/
theorem walkToEnd_eq_last {link : α → Option α} {list : List α} (nodup : list.Nodup)
    (follows : ∀ element ∈ list, link element = after list element)
    {element last : α} (member : element ∈ list) (isLast : list.getLast? = some last)
    {fuel : Nat} (enough : list.length ≤ fuel) :
    walkToEnd link fuel element = .done last := by
  obtain ⟨front, rest, split⟩ := List.append_of_mem member
  have shorter : rest.length < fuel := by
    rw [split, List.length_append, List.length_cons] at enough
    omega
  rw [walkToEnd_eq nodup follows split shorter]
  rw [split, List.getLast?_append_of_ne_nil _ (List.cons_ne_nil _ _),
    List.getLast?_eq_some_getLast (List.cons_ne_nil _ _)] at isLast
  exact congrArg Walk.done (Option.some.inj isLast)

end OpenUH.Foundation.Succession
