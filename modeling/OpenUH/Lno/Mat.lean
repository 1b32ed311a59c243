import Mathlib.Data.Nat.Basic

/-!
# Matrices that grow

`MAT<T>` of `mat.h`: the cells of a matrix stand row after row in one array,
which has more rows and columns than the matrix so that rows and columns can
be added without moving the cells.
-/

namespace OpenUH.Lno

/-- `MAT<T>`.  A cell that was never written has no value. -/
structure Mat (T : Type) where
  r : Nat
  c : Nat
  rx : Nat
  cx : Nat
  data : Nat → Option T

namespace Mat

variable {T : Type} {m m' : Mat T}

/-- `operator ()`, read. -/
def get (m : Mat T) (row col : Nat) : Option T :=
  m.data (row * m.cx + col)

/-- `operator ()`, written. -/
def set (m : Mat T) (row col : Nat) (value : Option T) : Mat T :=
  { m with
    data := fun address =>
      if address = row * m.cx + col then value else m.data address }

/-- Write some columns of a row, one after the other. -/
def setRow (m : Mat T) (row : Nat) (cols : List Nat) (value : Nat → Option T) : Mat T :=
  cols.foldl (fun m col => m.set row col (value col)) m

/-- The sizes of `_calcx`. -/
def sizes : List Nat :=
  [0, 0x4, 0x8, 0x10, 0x20, 0x40, 0x80, 0x100, 0x200, 0x400, 0x800, 0x1000,
    0x2000, 0x4000, 0x8000]

/-- `_calcx`, which stops the program for a dimension above all sizes. -/
def calcx (v : Nat) : Option Nat :=
  sizes.find? fun size => v ≤ size

/-- The constructor of a matrix of some size. -/
def create (r c : Nat) : Option (Mat T) := do
  let rx ← calcx r
  let cx ← calcx c
  some { r := r, c := c, rx := rx, cx := cx, data := fun _ => none }

/-- `_expand`, which stops the program if the array would become smaller. -/
def expand (m : Mat T) (rx cx : Nat) : Option (Mat T) :=
  if m.rx ≤ rx ∧ m.cx ≤ cx then
    if (rx = m.rx ∧ cx = m.cx) ∨ rx = 0 ∨ cx = 0 then
      some { m with rx := rx, cx := cx }
    else
      some ((List.range m.r).foldl
        (fun newdata row => newdata.setRow row (List.range m.c) (m.get row))
        { m with rx := rx, cx := cx, data := fun _ => none })
  else
    none

/-- `D_Add_Rows`, without the initialization. -/
def addRows (m : Mat T) (howMany : Nat) : Option (Mat T) :=
  (if m.r + howMany > m.rx then
      (calcx (m.r + howMany)).bind fun rx => m.expand rx m.cx
    else
      some m).map fun m => { m with r := m.r + howMany }

/-- `D_Add_Cols`, without the initialization. -/
def addCols (m : Mat T) (howMany : Nat) : Option (Mat T) :=
  (if m.c + howMany > m.cx then
      (calcx (m.c + howMany)).bind fun cx => m.expand m.rx cx
    else
      some m).map fun m => { m with c := m.c + howMany }

/-- The matrix stands within its array. -/
structure WellFormed (m : Mat T) : Prop where
  rows : m.r ≤ m.rx
  cols : m.c ≤ m.cx

/-! ## Cells -/

/-- Cells of different places have different addresses. -/
theorem address_inj {width row row' col col' : Nat} (below : col < width) (below' : col' < width) :
    row * width + col = row' * width + col' ↔ row = row' ∧ col = col' := by
  constructor
  · intro same
    have quotient {row col : Nat} (small : col < width) : (row * width + col) / width = row := by
      rw [Nat.add_comm, Nat.add_mul_div_right _ _ (by omega), Nat.div_eq_of_lt small, Nat.zero_add]
    have rows : row = row' := by
      rw [← @quotient row col below, same, quotient below']
    subst rows
    exact ⟨rfl, by omega⟩
  · rintro ⟨rfl, rfl⟩
    rfl

theorem get_set {row row' col col' : Nat} {value : Option T}
    (below : col < m.cx) (below' : col' < m.cx) :
    (m.set row col value).get row' col' =
      if row' = row ∧ col' = col then value else m.get row' col' := by
  unfold get set
  dsimp only
  by_cases here : row' = row ∧ col' = col
  · rw [if_pos ((address_inj below' below).mpr here), if_pos here]
  · rw [if_neg (mt (address_inj below' below).mp here), if_neg here]

@[simp]
theorem setRow_nil (row : Nat) (value : Nat → Option T) :
    m.setRow row [] value = m := rfl

theorem setRow_cons (row col : Nat) (cols : List Nat) (value : Nat → Option T) :
    m.setRow row (col :: cols) value = (m.set row col (value col)).setRow row cols value := rfl

/-- Writing cells changes nothing but the cells. -/
theorem setRow_shape (row : Nat) (cols : List Nat) (value : Nat → Option T) :
    (m.setRow row cols value).r = m.r ∧ (m.setRow row cols value).c = m.c ∧
      (m.setRow row cols value).rx = m.rx ∧
      (m.setRow row cols value).cx = m.cx := by
  induction cols generalizing m with
  | nil => exact ⟨rfl, rfl, rfl, rfl⟩
  | cons col cols ih =>
      rw [setRow_cons]
      exact ih

theorem get_setRow {row row' col' : Nat} {cols : List Nat}
    {value : Nat → Option T} (below : ∀ col ∈ cols, col < m.cx) (below' : col' < m.cx) :
    (m.setRow row cols value).get row' col' =
      if row' = row ∧ col' ∈ cols then value col' else m.get row' col' := by
  induction cols generalizing m with
  | nil => simp
  | cons col cols ih =>
      have width : (m.set row col (value col)).cx = m.cx := rfl
      rw [setRow_cons,
        ih
          (fun other member => width ▸ below other (List.mem_cons_of_mem _ member))
          (width ▸ below'),
        get_set (below col List.mem_cons_self) below']
      by_cases here : row' = row
      · by_cases same : col' = col
        · subst same
          simp [here]
        · simp [here, same]
      · simp [here]

theorem WellFormed.setRow (formed : m.WellFormed) (row : Nat) (cols : List Nat)
    (value : Nat → Option T) : (m.setRow row cols value).WellFormed := by
  obtain ⟨r, c, rx, cx⟩ := @setRow_shape T m row cols value
  exact ⟨r ▸ rx ▸ formed.rows, c ▸ cx ▸ formed.cols⟩

/-- Write one value to some columns of some rows. -/
def fill (m : Mat T) (rows cols : List Nat) (value : Option T) : Mat T :=
  rows.foldl (fun m row => m.setRow row cols fun _ => value) m

theorem fill_shape (rows cols : List Nat) (value : Option T) :
    (m.fill rows cols value).r = m.r ∧ (m.fill rows cols value).c = m.c ∧
      (m.fill rows cols value).rx = m.rx ∧
      (m.fill rows cols value).cx = m.cx := by
  induction rows generalizing m with
  | nil => exact ⟨rfl, rfl, rfl, rfl⟩
  | cons first rows ih =>
      obtain ⟨r, c, rx, cx⟩ := @setRow_shape T m first cols fun _ => value
      rw [fill, List.foldl_cons, ← r, ← c, ← rx, ← cx]
      exact ih

theorem get_fill {rows cols : List Nat} {value : Option T} {row col : Nat}
    (below : ∀ col ∈ cols, col < m.cx) (column : col < m.cx) :
    (m.fill rows cols value).get row col =
      if row ∈ rows ∧ col ∈ cols then value else m.get row col := by
  induction rows generalizing m with
  | nil => simp [fill]
  | cons first rows ih =>
      have shape := (@setRow_shape T m first cols fun _ => value).2.2.2
      have rest := @ih (m.setRow first cols fun _ => value) (by rwa [shape]) (by rwa [shape])
      rw [fill] at rest ⊢
      rw [List.foldl_cons, rest, get_setRow below column]
      by_cases inside : col ∈ cols
      · by_cases here : row = first
        · simp [here, inside]
        · simp [here, inside]
      · simp [inside]

theorem WellFormed.fill (formed : m.WellFormed) (rows cols : List Nat)
    (value : Option T) : (m.fill rows cols value).WellFormed := by
  obtain ⟨r, c, rx, cx⟩ := @fill_shape T m rows cols value
  exact ⟨r ▸ rx ▸ formed.rows, c ▸ cx ▸ formed.cols⟩

/-! ## Growth -/

theorem calcx_le {v size : Nat} (calculated : calcx v = some size) : v ≤ size := by
  simpa using List.find?_some calculated

theorem calcx_isSome {v : Nat} (small : v ≤ 0x8000) : ∃ size, calcx v = some size := by
  refine Option.isSome_iff_exists.mp (List.find?_isSome.mpr ⟨0x8000, ?_, ?_⟩)
  · decide
  · simpa using small

/-- What an operation leaves of a matrix: a larger one with the same cells. -/
structure Grows (m m' : Mat T) (rows cols : Nat) : Prop where
  formed : m'.WellFormed
  rows : m'.r = m.r + rows
  cols : m'.c = m.c + cols
  cells : ∀ row < m.r, ∀ col < m.c, m'.get row col = m.get row col

/-- The cells copied by some turns of the loop over the rows. -/
theorem get_copyRows {start : Mat T} {rows : List Nat} {row col : Nat}
    (wide : m.c ≤ start.cx) (below : col < m.c) :
    (rows.foldl (fun newdata row => newdata.setRow row (List.range m.c) (m.get row))
        start).get row col =
      if row ∈ rows then m.get row col else start.get row col := by
  induction rows generalizing start with
  | nil => simp
  | cons first rows ih =>
      have shape := (@setRow_shape T start first (List.range m.c) (m.get first)).2.2.2
      have inside (col : Nat) (member : col ∈ List.range m.c) : col < start.cx :=
        lt_of_lt_of_le (List.mem_range.mp member) wide
      rw [List.foldl_cons, ih (by rwa [shape]), get_setRow inside (lt_of_lt_of_le below wide)]
      by_cases later : row ∈ rows
      · rw [if_pos later, if_pos (List.mem_cons_of_mem _ later)]
      · rw [if_neg later]
        by_cases here : row = first
        · subst here
          rw [if_pos ⟨rfl, List.mem_range.mpr below⟩, if_pos List.mem_cons_self]
        · rw [if_neg fun both => here both.1,
            if_neg (mt List.mem_cons.mp (not_or.mpr ⟨here, later⟩))]

theorem copyRows_shape {start : Mat T} (rows : List Nat) :
    (rows.foldl (fun newdata row => newdata.setRow row (List.range m.c) (m.get row))
        start).r = start.r ∧
      (rows.foldl (fun newdata row => newdata.setRow row (List.range m.c) (m.get row))
        start).c = start.c ∧
      (rows.foldl (fun newdata row => newdata.setRow row (List.range m.c) (m.get row))
        start).rx = start.rx ∧
      (rows.foldl (fun newdata row => newdata.setRow row (List.range m.c) (m.get row))
        start).cx = start.cx := by
  induction rows generalizing start with
  | nil => exact ⟨rfl, rfl, rfl, rfl⟩
  | cons first rows ih =>
      obtain ⟨r, c, rx, cx⟩ := @setRow_shape T start first (List.range m.c) (m.get first)
      rw [List.foldl_cons, ← r, ← c, ← rx, ← cx]
      exact ih

theorem expand_grows {rx cx : Nat} (formed : m.WellFormed) (expanded : m.expand rx cx = some m') :
    m'.rx = rx ∧ m'.cx = cx ∧ m.Grows m' 0 0 := by
  unfold expand at expanded
  split at expanded
  · rename_i larger
    have rows := formed.rows
    have cols := formed.cols
    split at expanded
    · rename_i unmoved
      cases expanded
      refine ⟨rfl, rfl, ⟨⟨?_, ?_⟩, rfl, rfl, fun row member col below => ?_⟩⟩
      · dsimp only
        omega
      · dsimp only
        omega
      · have width : cx = m.cx := by omega
        unfold get
        dsimp only
        rw [width]
    · cases expanded
      obtain ⟨r, c, rxIs, cxIs⟩ := @copyRows_shape T m
        { m with rx := rx, cx := cx, data := fun _ => none } (List.range m.r)
      refine ⟨rxIs, cxIs, ⟨⟨?_, ?_⟩, r, c, fun row member col below => ?_⟩⟩
      · rw [r, rxIs]
        dsimp only
        omega
      · rw [c, cxIs]
        dsimp only
        omega
      · rw [get_copyRows (by dsimp only; omega) below, if_pos (List.mem_range.mpr member)]
  · cases expanded

theorem expand_isSome {rx cx : Nat} (rows : m.rx ≤ rx) (cols : m.cx ≤ cx) :
    ∃ m', m.expand rx cx = some m' := by
  unfold expand
  rw [if_pos ⟨rows, cols⟩]
  split
  · exact ⟨_, rfl⟩
  · exact ⟨_, rfl⟩

theorem addRows_grows {howMany : Nat} (formed : m.WellFormed)
    (added : m.addRows howMany = some m') : m.Grows m' howMany 0 := by
  unfold addRows at added
  obtain ⟨wide, expanded, rfl⟩ := Option.map_eq_some_iff.mp added
  split at expanded
  · obtain ⟨rx, calculated, grown⟩ := Option.bind_eq_some_iff.mp expanded
    obtain ⟨rxIs, cxIs, grows⟩ := expand_grows formed grown
    have large := calcx_le calculated
    have rows := grows.rows
    refine ⟨⟨?_, grows.formed.cols⟩, ?_, grows.cols, grows.cells⟩
    · dsimp only
      omega
    · dsimp only
      omega
  · cases expanded
    exact ⟨⟨by dsimp only; omega, formed.cols⟩, rfl, rfl, fun _ _ _ _ => rfl⟩

theorem addCols_grows {howMany : Nat} (formed : m.WellFormed)
    (added : m.addCols howMany = some m') : m.Grows m' 0 howMany := by
  unfold addCols at added
  obtain ⟨wide, expanded, rfl⟩ := Option.map_eq_some_iff.mp added
  split at expanded
  · obtain ⟨cx, calculated, grown⟩ := Option.bind_eq_some_iff.mp expanded
    obtain ⟨rxIs, cxIs, grows⟩ := expand_grows formed grown
    have large := calcx_le calculated
    have cols := grows.cols
    refine ⟨⟨grows.formed.rows, ?_⟩, grows.rows, ?_, grows.cells⟩
    · dsimp only
      omega
    · dsimp only
      omega
  · cases expanded
    exact ⟨⟨formed.rows, by dsimp only; omega⟩, rfl, rfl, fun _ _ _ _ => rfl⟩

/-- Growth stops the program only above the largest size. -/
theorem addRows_isSome {howMany : Nat} (small : m.r + howMany ≤ 0x8000) :
    ∃ m', m.addRows howMany = some m' := by
  obtain ⟨size, calculated⟩ := calcx_isSome small
  have large := calcx_le calculated
  unfold addRows
  split
  · obtain ⟨wide, expanded⟩ :=
      @expand_isSome T m size m.cx (by omega) (le_refl _)
    rw [calculated, Option.bind_some, expanded]
    exact ⟨_, rfl⟩
  · exact ⟨_, rfl⟩

theorem addCols_isSome {howMany : Nat} (small : m.c + howMany ≤ 0x8000) :
    ∃ m', m.addCols howMany = some m' := by
  obtain ⟨size, calculated⟩ := calcx_isSome small
  have large := calcx_le calculated
  unfold addCols
  split
  · obtain ⟨wide, expanded⟩ :=
      @expand_isSome T m m.rx size (le_refl _) (by omega)
    rw [calculated, Option.bind_some, expanded]
    exact ⟨_, rfl⟩
  · exact ⟨_, rfl⟩

theorem create_spec {r c : Nat} (created : create r c = some m) :
    m.WellFormed ∧ m.r = r ∧ m.c = c := by
  unfold create at created
  obtain ⟨rx, rowsIs, rest⟩ := Option.bind_eq_some_iff.mp created
  obtain ⟨cx, colsIs, made⟩ := Option.bind_eq_some_iff.mp rest
  cases made
  exact ⟨⟨calcx_le rowsIs, calcx_le colsIs⟩, rfl, rfl⟩

end Mat

end OpenUH.Lno
