import Mathlib.Data.List.Chain
import Mathlib.Data.Finset.Max
import Mathlib.Data.Set.Finite.Basic

/-!
# Paths that avoid a node

A node lies on every path to another one exactly if the other one is not reached by
steps that avoid it, and the nodes on every path form a tree.  Backwards, the steps to a node
come to an end unless they lead to a cycle.
-/

namespace OpenUH.Foundation.PathAvoidance

variable {α : Type*}

/-! ## Paths -/

/-- A path along edges from a node with a property to a given node. -/
structure IsPath (start : α → Prop) (edge : α → α → Prop) (node : α) (path : List α) :
    Prop where
  chain : path.IsChain edge
  first : ∃ head, path.head? = some head ∧ start head
  last : path.getLast? = some node

/-- A path along edges from a given node to a node with a property. -/
structure IsPathTo (stop : α → Prop) (edge : α → α → Prop) (node : α) (path : List α) :
    Prop where
  chain : path.IsChain edge
  first : path.head? = some node
  last : ∃ final, path.getLast? = some final ∧ stop final

/-- A node lies on every path to another one. -/
def OnEveryPath (start : α → Prop) (edge : α → α → Prop) (through node : α) : Prop :=
  ∀ path, IsPath start edge node path → through ∈ path

/-- A node lies on every path from another one. -/
def OnEveryPathTo (stop : α → Prop) (edge : α → α → Prop) (through node : α) : Prop :=
  ∀ path, IsPathTo stop edge node path → through ∈ path

variable {start stop : α → Prop} {edge : α → α → Prop} {through node next : α}
  {path : List α}

/-- Backwards, a path to a node is a path from it. -/
theorem isPathTo_iff_reverse :
    IsPathTo stop edge node path ↔ IsPath stop (fun a b => edge b a) node path.reverse := by
  constructor
  · rintro ⟨chain, first, last⟩
    exact ⟨List.isChain_reverse.2 chain, by rwa [List.head?_reverse],
      by rwa [List.getLast?_reverse]⟩
  · rintro ⟨chain, first, last⟩
    rw [List.head?_reverse] at first
    rw [List.getLast?_reverse] at last
    exact ⟨List.isChain_reverse.1 chain, last, first⟩

/-- A path goes on along an edge. -/
theorem IsPath.snoc (isPath : IsPath start edge node path) (isEdge : edge node next) :
    IsPath start edge next (path ++ [next]) := by
  obtain ⟨chain, ⟨head, isHead, isStart⟩, last⟩ := isPath
  refine ⟨?_, ⟨head, ?_, isStart⟩, ?_⟩
  · rw [List.isChain_append]
    refine ⟨chain, List.isChain_singleton next, ?_⟩
    intro a isLast b isNext
    cases last.symm.trans isLast
    cases isNext
    exact isEdge
  · rw [List.head?_append, isHead]
    rfl
  · rw [List.getLast?_append]
    rfl

/-! ## Steps that avoid a node -/

/-- The nodes that are reached without a given node. -/
inductive Avoids (start : α → Prop) (edge : α → α → Prop) (through : α) : α → Prop where
  | start {node : α} (isStart : start node) (other : node ≠ through) :
      Avoids start edge through node
  | step {node next : α} (avoids : Avoids start edge through node) (isEdge : edge node next)
      (other : next ≠ through) : Avoids start edge through next

theorem Avoids.ne (avoids : Avoids start edge through node) : node ≠ through := by
  cases avoids with
  | start _ other => exact other
  | step _ _ other => exact other

/-- What is reached without a node is reached by a path without it. -/
theorem Avoids.exists_path (avoids : Avoids start edge through node) :
    ∃ path, IsPath start edge node path ∧ through ∉ path := by
  induction avoids with
  | @start node isStart other =>
      refine ⟨[node], ⟨List.isChain_singleton node, ⟨node, rfl, isStart⟩, rfl⟩, ?_⟩
      exact fun member => other (List.mem_singleton.1 member).symm
  | @step node next _ isEdge other ih =>
      obtain ⟨path, isPath, absent⟩ := ih
      refine ⟨path ++ [next], isPath.snoc isEdge, ?_⟩
      rw [List.mem_append, List.mem_singleton]
      rintro (member | same)
      · exact absent member
      · exact other same.symm

/-- Along a path without a node every node is reached without it. -/
theorem avoids_of_chain {head : α} (chain : (head :: path).IsChain edge)
    (avoids : Avoids start edge through head) (absent : through ∉ path) :
    ∀ member ∈ head :: path, Avoids start edge through member := by
  induction path generalizing head with
  | nil =>
      intro member inPath
      exact List.mem_singleton.1 inPath ▸ avoids
  | cons next rest ih =>
      rw [List.isChain_cons_cons] at chain
      rw [List.mem_cons, not_or] at absent
      rw [List.forall_mem_cons]
      exact ⟨avoids, ih chain.2 (.step avoids chain.1 fun same => absent.1 same.symm) absent.2⟩

theorem IsPath.avoids (isPath : IsPath start edge node path) (absent : through ∉ path) :
    ∀ member ∈ path, Avoids start edge through member := by
  obtain ⟨chain, ⟨head, isHead, isStart⟩, last⟩ := isPath
  cases path with
  | nil => cases isHead
  | cons first rest =>
      cases isHead
      rw [List.mem_cons, not_or] at absent
      exact avoids_of_chain chain (.start isStart fun same => absent.1 same.symm) absent.2

/-- What is reached without a node from what was reached without it is reached without it. -/
theorem Avoids.trans {passes : α → Prop}
    (avoids : Avoids (fun a => passes a ∧ Avoids start edge through a) edge through node) :
    Avoids start edge through node := by
  induction avoids with
  | start isStart _ => exact isStart.2
  | step _ isEdge other ih => exact .step ih isEdge other

/-- A node is reached without another one by way of a node with a property exactly if a path
without the other one passes such a node. -/
theorem avoids_by_way_iff {passes : α → Prop} :
    Avoids (fun a => passes a ∧ Avoids start edge through a) edge through node ↔
      ∃ path, IsPath start edge node path ∧ through ∉ path ∧ ∃ a ∈ path, passes a := by
  constructor
  · intro avoids
    induction avoids with
    | @start node isStart _ =>
        obtain ⟨path, isPath, absent⟩ := isStart.2.exists_path
        exact ⟨path, isPath, absent, node, List.mem_of_getLast? isPath.last, isStart.1⟩
    | @step node next _ isEdge other ih =>
        obtain ⟨path, isPath, absent, a, member, passes⟩ := ih
        refine ⟨path ++ [next], isPath.snoc isEdge, ?_, a, List.mem_append_left _ member, passes⟩
        rw [List.mem_append, List.mem_singleton]
        rintro (member | same)
        · exact absent member
        · exact other same.symm
  · rintro ⟨path, isPath, absent, a, member, passes⟩
    have before := isPath.avoids absent a member
    obtain ⟨earlier, later, rfl⟩ := List.append_of_mem member
    have last := isPath.last
    rw [List.getLast?_append_cons] at last
    rw [List.mem_append, not_or, List.mem_cons, not_or] at absent
    exact avoids_of_chain (List.isChain_append.1 isPath.chain).2.1
      (.start ⟨passes, before⟩ before.ne) absent.2.2 node (List.mem_of_getLast? last)

/-- A node lies on every path to another one exactly if the other one is not reached
without it. -/
theorem onEveryPath_iff :
    OnEveryPath start edge through node ↔ ¬ Avoids start edge through node := by
  constructor
  · intro onEvery avoids
    obtain ⟨path, isPath, absent⟩ := avoids.exists_path
    exact absent (onEvery path isPath)
  · intro reached path isPath
    by_contra absent
    exact reached (isPath.avoids absent node (List.mem_of_getLast? isPath.last))

theorem onEveryPathTo_iff :
    OnEveryPathTo stop edge through node ↔ ¬ Avoids stop (fun a b => edge b a) through node := by
  rw [← onEveryPath_iff]
  constructor
  · intro onEvery path isPath
    have member := onEvery path.reverse (isPathTo_iff_reverse.2 (by rwa [List.reverse_reverse]))
    exact List.mem_reverse.1 member
  · intro onEvery path isPath
    exact List.mem_reverse.1 (onEvery path.reverse (isPathTo_iff_reverse.1 isPath))

/-- A path stays where its start is and its edges lead. -/
theorem IsPath.inside {inside : α → Prop} (starts : ∀ a, start a → inside a)
    (edges : ∀ a b, edge a b → inside b) (isPath : IsPath start edge node path) :
    ∀ member ∈ path, inside member := by
  obtain ⟨chain, ⟨head, isHead, isStart⟩, last⟩ := isPath
  clear last
  cases path with
  | nil => nofun
  | cons first rest =>
      cases isHead
      have isInside := starts _ isStart
      clear isStart
      induction rest generalizing head with
      | nil =>
          intro member inPath
          exact List.mem_singleton.1 inPath ▸ isInside
      | cons next rest ih =>
          rw [List.isChain_cons_cons] at chain
          rw [List.forall_mem_cons]
          exact ⟨isInside, ih next chain.2 (edges _ _ chain.1)⟩

/-! ## Cycles -/

/-- An accessible node lies on no cycle. -/
theorem not_transGen_of_acc {step : α → α → Prop} (acc : Acc step node) :
    ¬ Relation.TransGen step node node := by
  have general := acc.transGen
  induction general with
  | intro node _ ih =>
      exact fun cycle => ih node cycle (acc.inv_of_transGen cycle) cycle

/-- In a finite graph a node is accessible if no cycle leads to it. -/
theorem acc_of_no_cycle {step : α → α → Prop} {members : Set α} (finite : members.Finite)
    (inside : ∀ a b, step a b → a ∈ members)
    (acyclic : ∀ a, Relation.ReflTransGen step a node → ¬ Relation.TransGen step a a) :
    Acc step node := by
  have fewPredecessors : Finite { a // Relation.ReflTransGen step a node } := by
    refine Set.Finite.subset (finite.insert node) fun a leads => ?_
    rcases Relation.ReflTransGen.cases_head leads with same | ⟨b, isStep, -⟩
    · exact .inl same
    · exact .inr (inside a b isStep)
  have wellFounded : WellFounded
      fun a b : { a // Relation.ReflTransGen step a node } => Relation.TransGen step a.1 b.1 := by
    have isTrans : IsTrans { a // Relation.ReflTransGen step a node }
        fun a b => Relation.TransGen step a.1 b.1 := ⟨fun _ _ _ => Relation.TransGen.trans⟩
    have irreflexive : Std.Irrefl
        fun a b : { a // Relation.ReflTransGen step a node } =>
          Relation.TransGen step a.1 b.1 := ⟨fun a => acyclic a.1 a.2⟩
    exact Finite.wellFounded_of_trans_of_irrefl _
  have accessible : ∀ a : { a // Relation.ReflTransGen step a node }, Acc step a.1 := by
    intro a
    induction a using wellFounded.induction with
    | _ a ih =>
        exact ⟨_, fun b isStep => ih ⟨b, .head isStep a.2⟩ (.single isStep)⟩
  exact accessible ⟨node, .refl⟩

/-! ## Trees -/

section Tree

variable {first second other : α} (reached : Avoids start edge other node)

include reached

/-- One of two nodes that are reached without each other is avoided on some way. -/
theorem Avoids.either (left : Avoids start edge first second)
    (right : Avoids start edge second first) :
    Avoids start edge first node ∨ Avoids start edge second node := by
  induction reached with
  | @start node isStart _ =>
      by_cases same : node = first
      · exact .inr (same ▸ right)
      · exact .inl (.start isStart same)
  | @step node next _ isEdge _ ih =>
      rcases ih with avoids | avoids
      · by_cases same : next = first
        · exact .inr (same ▸ right)
        · exact .inl (.step avoids isEdge same)
      · by_cases same : next = second
        · exact .inl (same ▸ left)
        · exact .inr (.step avoids isEdge same)

/-- A node is reached without another one, or the other one without it. -/
theorem Avoids.apart (differs : node ≠ first) :
    Avoids start edge node first ∨ Avoids start edge first node := by
  by_contra! neither
  suffices both : ∀ next, Avoids start edge other next →
      Avoids start edge node next ∧ Avoids start edge first next from
    (both node reached).1.ne rfl
  intro next reached
  induction reached with
  | start isStart _ =>
      exact ⟨.start isStart fun same => neither.2 (.start (same ▸ isStart) differs),
        .start isStart fun same => neither.1 (.start (same ▸ isStart) differs.symm)⟩
  | step _ isEdge _ ih =>
      exact ⟨.step ih.1 isEdge fun same => neither.2 (.step ih.2 (same ▸ isEdge) differs),
        .step ih.2 isEdge fun same => neither.1 (.step ih.1 (same ▸ isEdge) differs.symm)⟩

end Tree

/-- Each node has only itself in its set, or adds itself to the set of one other node. -/
def IsTree [DecidableEq α] (nodes : List α) (sets : α → Finset α) : Prop :=
  ∀ node ∈ nodes, sets node = {node} ∨ ∃! parent, parent ∈ nodes ∧ node ∉ sets parent ∧
    sets node = insert node (sets parent)

/-- With nodes without end a path avoids one. -/
theorem IsPath.exists_avoids [DecidableEq α] [Infinite α] (isPath : IsPath start edge node path) :
    ∃ other, Avoids start edge other node := by
  obtain ⟨other, absent⟩ := Infinite.exists_notMem_finset path.toFinset
  rw [List.mem_toFinset] at absent
  exact ⟨other, isPath.avoids absent node (List.mem_of_getLast? isPath.last)⟩

section Exact

variable {nodes : List α} {sets : α → Finset α} {first second other : α}
  (exact : ∀ node ∈ nodes, ∀ through, through ∈ sets node ↔
    through ∈ nodes ∧ ¬ Avoids start edge through node)
  (inside : node ∈ nodes)

include exact inside

theorem self_mem_of_exact : node ∈ sets node :=
  (exact node inside node).2 ⟨inside, fun avoids => avoids.ne rfl⟩

theorem subset_of_exact (member : through ∈ sets node) : sets through ⊆ sets node := by
  intro first isBefore
  obtain ⟨isNode, always⟩ := (exact node inside through).1 member
  obtain ⟨isFirst, before⟩ := (exact through isNode first).1 isBefore
  refine (exact node inside first).2 ⟨isFirst, fun avoids => ?_⟩
  obtain ⟨path, isPath, absent⟩ := avoids.exists_path
  exact before (isPath.avoids absent through (onEveryPath_iff.2 always path isPath))

variable (avoids : Avoids start edge other node)

include avoids

theorem eq_of_exact (before : first ∈ sets node) (after : node ∈ sets first) : node = first := by
  obtain ⟨isFirst, always⟩ := (exact node inside first).1 before
  by_contra differs
  exact (avoids.apart differs).elim ((exact first isFirst node).1 after).2 always

/-- The set of a node is a chain. -/
theorem chain_of_exact (left : first ∈ sets node) (right : second ∈ sets node) :
    first ∈ sets second ∨ second ∈ sets first := by
  obtain ⟨isFirst, always⟩ := (exact node inside first).1 left
  obtain ⟨isSecond, often⟩ := (exact node inside second).1 right
  by_contra! neither
  rw [exact second isSecond, exact first isFirst, not_and_not_right, not_and_not_right] at neither
  exact (avoids.either (neither.1 isFirst) (neither.2 isSecond)).elim always often

/-- The other node with the largest set is the parent. -/
theorem exists_parent_of_exact [DecidableEq α] (more : ∃ through ∈ sets node, through ≠ node) :
    ∃ parent, parent ∈ nodes ∧ node ∉ sets parent ∧ sets node = insert node (sets parent) := by
  obtain ⟨parent, strict, most⟩ := Finset.exists_max_image ((sets node).erase node)
    (fun through => (sets through).card)
    (more.imp fun _ strict => Finset.mem_erase.2 strict.symm)
  obtain ⟨differs, member⟩ := Finset.mem_erase.1 strict
  refine ⟨parent, ((exact node inside parent).1 member).1,
    fun below => differs (eq_of_exact exact inside avoids member below).symm,
    Finset.Subset.antisymm (fun through before => Finset.mem_insert.2 ?_)
      (Finset.insert_subset (self_mem_of_exact exact inside)
        (subset_of_exact exact inside member))⟩
  refine or_iff_not_imp_left.2 fun other => ?_
  rcases chain_of_exact exact inside avoids before member with below | above
  · exact below
  · have isNode := ((exact node inside through).1 before).1
    have larger := most through (Finset.mem_erase.2 ⟨other, before⟩)
    rw [Finset.eq_of_subset_of_card_le (subset_of_exact exact isNode above) larger]
    exact self_mem_of_exact exact isNode

end Exact

/-- The nodes on every path form a tree. -/
theorem isTree_of_exact [DecidableEq α] [Infinite α] {nodes : List α} {sets : α → Finset α}
    (paths : ∀ node ∈ nodes, ∃ path, IsPath start edge node path)
    (exact : ∀ node ∈ nodes, ∀ through, through ∈ sets node ↔
      through ∈ nodes ∧ ¬ Avoids start edge through node) :
    IsTree nodes sets := by
  have reached : ∀ node ∈ nodes, ∃ other, Avoids start edge other node := by
    intro node inside
    obtain ⟨path, isPath⟩ := paths node inside
    exact isPath.exists_avoids
  intro node inside
  obtain ⟨_, avoids⟩ := reached node inside
  by_cases more : ∃ through ∈ sets node, through ≠ node
  · right
    obtain ⟨parent, isNode, above, adds⟩ := exists_parent_of_exact exact inside avoids more
    refine ⟨parent, ⟨isNode, above, adds⟩, ?_⟩
    rintro third ⟨isThird, notThird, addsThird⟩
    have equal : sets third = sets parent := by
      rw [← Finset.erase_insert notThird, ← addsThird, adds, Finset.erase_insert above]
    obtain ⟨_, avoids⟩ := reached third isThird
    exact eq_of_exact exact isThird avoids (equal ▸ self_mem_of_exact exact isNode)
      (equal ▸ self_mem_of_exact exact isThird)
  · left
    push Not at more
    exact Finset.eq_singleton_iff_unique_mem.2 ⟨self_mem_of_exact exact inside, more⟩

end OpenUH.Foundation.PathAvoidance
