import Mathlib.Algebra.Order.Ring.Int

/-!
# Tilings of an interval

A list of elements, each with a start and a length, tiles an interval of
addresses where the elements follow one another without gap or overlap.
-/

namespace OpenUH.Foundation.Tiling

universe u

variable {α : Type u}

/-- The elements cover the addresses from `first` up to `last`, in order. -/
def Tiles (start length : α → Nat) : Nat → Nat → List α → Prop
  | first, last, [] => first = last
  | first, last, element :: rest =>
      start element = first ∧ Tiles start length (first + length element) last rest

variable {start length : α → Nat}

/-- A list tiles an interval when its two parts meet somewhere inside. -/
theorem tiles_append {first last : Nat} {left right : List α} :
    Tiles start length first last (left ++ right) ↔
      ∃ middle, Tiles start length first middle left ∧ Tiles start length middle last right := by
  induction left generalizing first with
  | nil => simp [Tiles]
  | cons element rest ih =>
      simp only [List.cons_append, Tiles, ih]
      constructor
      · rintro ⟨starts, middle, inLeft, inRight⟩
        exact ⟨middle, ⟨starts, inLeft⟩, inRight⟩
      · rintro ⟨middle, ⟨starts, inLeft⟩, inRight⟩
        exact ⟨starts, middle, inLeft, inRight⟩

variable {list : List α}

theorem Tiles.congr {start' length' : α → Nat} {first last : Nat}
    (tiles : Tiles start length first last list)
    (same : ∀ element ∈ list, start' element = start element ∧ length' element = length element) :
    Tiles start' length' first last list := by
  induction list generalizing first with
  | nil => exact tiles
  | cons element rest ih =>
      obtain ⟨starts, inRest⟩ := tiles
      obtain ⟨sameStart, sameLength⟩ := same element List.mem_cons_self
      refine ⟨sameStart.trans starts, ?_⟩
      rw [sameLength]
      exact ih inRest (fun other member => same other (List.mem_cons_of_mem _ member))

/-- A part of the list may be replaced by one that tiles the same interval. -/
theorem Tiles.splice {start' length' : α → Nat} {first last : Nat}
    {front middle middle' rest : List α}
    (tiles : Tiles start length first last (front ++ (middle ++ rest)))
    (sameFront : ∀ element ∈ front,
      start' element = start element ∧ length' element = length element)
    (sameRest : ∀ element ∈ rest, start' element = start element ∧ length' element = length element)
    (replaced : ∀ low high, Tiles start length low high middle →
      Tiles start' length' low high middle') :
    Tiles start' length' first last (front ++ (middle' ++ rest)) := by
  obtain ⟨low, inFront, inTail⟩ := tiles_append.mp tiles
  obtain ⟨high, inMiddle, inRest⟩ := tiles_append.mp inTail
  exact tiles_append.mpr ⟨low, inFront.congr sameFront,
    tiles_append.mpr ⟨high, replaced low high inMiddle, inRest.congr sameRest⟩⟩

theorem Tiles.le {first last : Nat}
    (tiles : Tiles start length first last list) : first ≤ last := by
  induction list generalizing first with
  | nil => exact Nat.le_of_eq tiles
  | cons element rest ih =>
      exact Nat.le_trans (Nat.le_add_right _ _) (ih tiles.2)

/-- An element lies inside the interval. -/
theorem Tiles.bounds {first last : Nat} (tiles : Tiles start length first last list)
    {element : α} (member : element ∈ list) :
    first ≤ start element ∧ start element + length element ≤ last := by
  obtain ⟨left, right, rfl⟩ := List.append_of_mem member
  obtain ⟨middle, inLeft, starts, inRight⟩ := tiles_append.mp tiles
  have before := inLeft.le
  have behind := inRight.le
  constructor
  · exact starts ▸ before
  · exact starts ▸ behind

/-- The elements come in the order of their addresses. -/
theorem Tiles.ordered {first last : Nat} (tiles : Tiles start length first last list) :
    list.Pairwise (fun left right =>
      start left + length left ≤ start right) := by
  induction list generalizing first with
  | nil => exact List.Pairwise.nil
  | cons element rest ih =>
      obtain ⟨starts, inRest⟩ := tiles
      refine List.Pairwise.cons ?_ (ih inRest)
      intro other member
      exact starts ▸ (inRest.bounds member).1

/-- An element in front of another ends where that one starts or earlier. -/
theorem Tiles.le_of_split {first last : Nat} {left right : List α} {element other : α}
    (tiles : Tiles start length first last (left ++ element :: right)) (later : other ∈ right) :
    start element + length element ≤ start other := by
  have ordered := (List.pairwise_append.mp tiles.ordered).2.1
  exact (List.pairwise_cons.mp ordered).1 other later

/-- Two elements do not overlap. -/
theorem Tiles.disjoint {first last : Nat} (tiles : Tiles start length first last list)
    {element other : α} (member : element ∈ list) (member' : other ∈ list)
    (different : element ≠ other) :
    start element + length element ≤ start other ∨ start other + length other ≤ start element := by
  obtain ⟨left, right, rfl⟩ := List.append_of_mem member
  rcases List.mem_append.mp member' with inLeft | inRight
  · right
    have ordered := (List.pairwise_append.mp tiles.ordered).2.2
    exact ordered other inLeft element List.mem_cons_self
  · left
    rcases List.mem_cons.mp inRight with same | later
    · exact absurd same.symm different
    · exact tiles.le_of_split later

/-- An element starts where the lengths in front of it end. -/
theorem Tiles.start_eq_sum {first last : Nat} {left right : List α} {element : α}
    (tiles : Tiles start length first last (left ++ element :: right)) :
    start element = first + (left.map length).sum := by
  induction left generalizing first with
  | nil => exact tiles.1
  | cons other left ih =>
      rw [ih tiles.2, List.map_cons, List.sum_cons, Nat.add_assoc]

/-- The interval ends where the lengths of its elements do. -/
theorem Tiles.last_eq_sum {first last : Nat} (tiles : Tiles start length first last list) :
    last = first + (list.map length).sum := by
  induction list generalizing first with
  | nil => exact tiles.symm
  | cons element rest ih =>
      rw [ih tiles.2, List.map_cons, List.sum_cons, Nat.add_assoc]

end OpenUH.Foundation.Tiling
