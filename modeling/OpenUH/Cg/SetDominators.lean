import OpenUH.Cg.DominatorExactness

/-!
# Dominators of a set of blocks

`BB_SET_Calculate_Dominators` starts from the members by themselves and lets their sets grow.
An element that lies on every path to a member gets there unless the paths lead round a
cycle without it, whose members wait for each other.
-/

namespace OpenUH.Cg.Dominators

open Foundation.Fallible
open Foundation.PathAvoidance
open Foundation.SweepIteration

variable {cfg : Cfg} {bbset : Finset Nat} {neighbours : Nat → List Nat} {bb through : Nat}

/-! ## Specification -/

/-- A set of blocks. -/
structure BBSet (cfg : Cfg) where
  members : Finset Nat
  inside : ∀ bb ∈ members, bb ∈ cfg.blocks

/-- A member with a neighbour outside of the set or without neighbours. -/
def IsBorder (bbset : Finset Nat) (neighbours : Nat → List Nat) (bb : Nat) : Prop :=
  bb ∈ bbset ∧ (neighbours bb = [] ∨ ∃ other ∈ neighbours bb, other ∉ bbset)

/-- A member has exactly the members on every path from an entry of the set to it. -/
def BBSet.ExactDom (bbset : BBSet cfg) (map : DomMap) (bb : Nat) : Prop :=
  ∀ through, through ∈ map.domSet bb ↔ through ∈ bbset.members ∧
    OnEveryPath (IsBorder bbset.members cfg.preds) cfg.edge through bb

/-- A member has exactly the members on every path from it to an exit of the set. -/
def BBSet.ExactPdom (bbset : BBSet cfg) (map : DomMap) (bb : Nat) : Prop :=
  ∀ through, through ∈ map.pdomSet bb ↔ through ∈ bbset.members ∧
    OnEveryPathTo (IsBorder bbset.members cfg.succs) cfg.edge through bb

/-- The step from a neighbour to a member, both of which are members other than a given one. -/
def InnerStep (bbset : Finset Nat) (neighbours : Nat → List Nat) (through other bb : Nat) : Prop :=
  other ∈ neighbours bb ∧ (other ∈ bbset ∧ other ≠ through) ∧ (bb ∈ bbset ∧ bb ≠ through)

/-- No member of a cycle of members has a member outside of the cycle on every path from an
entry of the set to it. -/
def BBSet.UndominatedCycles (bbset : BBSet cfg) : Prop :=
  ∀ through ∈ bbset.members, ∀ bb ∈ bbset.members,
    OnEveryPath (IsBorder bbset.members cfg.preds) cfg.edge through bb →
      ¬ Relation.TransGen (InnerStep bbset.members cfg.preds through) bb bb

/-- No member of a cycle of members has a member outside of the cycle on every path from it to
an exit of the set. -/
def BBSet.UnpostdominatedCycles (bbset : BBSet cfg) : Prop :=
  ∀ through ∈ bbset.members, ∀ bb ∈ bbset.members,
    OnEveryPathTo (IsBorder bbset.members cfg.succs) cfg.edge through bb →
      ¬ Relation.TransGen (InnerStep bbset.members cfg.succs through) bb bb

/-! ## Forced elements -/

theorem Forced.through_inside (forced : Forced bbset neighbours through bb) : through ∈ bbset := by
  induction forced with
  | self inside => exact inside
  | step _ nonempty _ _ ih =>
      obtain ⟨other, isNeighbour⟩ := List.exists_mem_of_ne_nil _ nonempty
      exact ih other isNeighbour

/-- The steps back from a member on which an element is forced come to an end. -/
theorem Forced.acc (forced : Forced bbset neighbours through bb) :
    Acc (InnerStep bbset neighbours through) bb := by
  induction forced with
  | self _ => exact ⟨_, fun other isStep => absurd rfl isStep.2.2.2⟩
  | step _ _ _ _ ih =>
      exact ⟨_, fun other isStep => ih other isStep.1⟩

section Steps

variable {step : Nat → Nat → Prop}

section

variable (isStep : ∀ bb ∈ bbset, ∀ other, step other bb ↔ other ∈ neighbours bb)

include isStep

/-- An element that is forced on a member lies on every path to it. -/
theorem Forced.not_avoids (inside : bb ∈ bbset) (forced : Forced bbset neighbours through bb) :
    ¬ Avoids (IsBorder bbset neighbours) step through bb := by
  intro avoids
  induction avoids with
  | start isBorder differs =>
      cases forced with
      | self _ => exact differs rfl
      | step _ nonempty members _ =>
          rcases isBorder.2 with nothing | ⟨other, isNeighbour, outside⟩
          · exact nonempty nothing
          · exact outside (members other isNeighbour)
  | step _ isEdge differs ih =>
      cases forced with
      | self _ => exact differs rfl
      | step _ _ members forced =>
          have isNeighbour := (isStep _ inside _).1 isEdge
          exact ih (members _ isNeighbour) (forced _ isNeighbour)

/-- An element on every path to a member is forced on it if the steps back come to an end. -/
theorem forced_of_acc
    (isMember : through ∈ bbset) (acc : Acc (InnerStep bbset neighbours through) bb)
    (inside : bb ∈ bbset) (stays : ¬ Avoids (IsBorder bbset neighbours) step through bb) :
    Forced bbset neighbours through bb := by
  induction acc with
  | intro bb _ ih =>
      by_cases same : bb = through
      · rw [same]
        exact .self isMember
      · have noBorder : ¬ IsBorder bbset neighbours bb := fun isBorder =>
          stays (.start isBorder same)
        unfold IsBorder at noBorder
        push Not at noBorder
        obtain ⟨nonempty, members⟩ := noBorder inside
        refine .step inside nonempty members fun other isNeighbour => ?_
        by_cases same' : other = through
        · rw [same']
          exact .self isMember
        · exact ih other
            ⟨isNeighbour, ⟨members other isNeighbour, same'⟩, inside, same⟩
            (members other isNeighbour) fun avoids =>
              stays (.step avoids ((isStep bb inside other).2 isNeighbour) same)

/-- Exactly the elements on every path are forced if and only if no cycle has one of them
outside. -/
theorem forced_exact_iff :
    (∀ bb ∈ bbset, ∀ through, Forced bbset neighbours through bb ↔
        through ∈ bbset ∧ ¬ Avoids (IsBorder bbset neighbours) step through bb) ↔
      ∀ through ∈ bbset, ∀ bb ∈ bbset, ¬ Avoids (IsBorder bbset neighbours) step through bb →
        ¬ Relation.TransGen (InnerStep bbset neighbours through) bb bb := by
  constructor
  · intro exact through isMember bb inside stays
    exact not_transGen_of_acc ((exact bb inside through).2 ⟨isMember, stays⟩).acc
  · intro acyclic bb inside through
    constructor
    · exact fun forced => ⟨forced.through_inside, forced.not_avoids isStep inside⟩
    · rintro ⟨isMember, stays⟩
      refine forced_of_acc isStep isMember ?_ inside stays
      refine acc_of_no_cycle bbset.finite_toSet (fun _ _ isInner => isInner.2.1.1) ?_
      intro other leads
      have both : other ∈ bbset ∧ ¬ Avoids (IsBorder bbset neighbours) step through other := by
        induction leads using Relation.ReflTransGen.head_induction_on with
        | refl => exact ⟨inside, stays⟩
        | @head first next isInner _ ih =>
            refine ⟨isInner.2.1.1, fun avoids => ih.2 ?_⟩
            exact .step avoids ((isStep next isInner.2.2.1 first).2 isInner.1) isInner.2.2.2
      exact acyclic through isMember other both.1 both.2

end

end Steps

/-! ## Dominators and post-dominators -/

theorem BBSet.edge_iff_pred (bbset : BBSet cfg) :
    ∀ bb ∈ bbset.members, ∀ other, cfg.edge other bb ↔ other ∈ cfg.preds bb :=
  fun bb isMember _ => ⟨Cfg.edge.pred, Cfg.edge_of_pred (bbset.inside bb isMember)⟩

theorem BBSet.edge_iff_succ (bbset : BBSet cfg) :
    ∀ bb ∈ bbset.members, ∀ other, cfg.edge bb other ↔ other ∈ cfg.succs bb :=
  fun bb isMember _ => and_iff_right (bbset.inside bb isMember)

theorem BBSet.dom_exact_iff (bbset : BBSet cfg) :
    (∀ bb ∈ bbset.members, ∀ through, Forced bbset.members cfg.preds through bb ↔
        through ∈ bbset.members ∧
          OnEveryPath (IsBorder bbset.members cfg.preds) cfg.edge through bb) ↔
      bbset.UndominatedCycles := by
  unfold BBSet.UndominatedCycles
  simp only [onEveryPath_iff]
  exact forced_exact_iff bbset.edge_iff_pred

theorem BBSet.pdom_exact_iff (bbset : BBSet cfg) :
    (∀ bb ∈ bbset.members, ∀ through, Forced bbset.members cfg.succs through bb ↔
        through ∈ bbset.members ∧
          OnEveryPathTo (IsBorder bbset.members cfg.succs) cfg.edge through bb) ↔
      bbset.UnpostdominatedCycles := by
  unfold BBSet.UnpostdominatedCycles
  simp only [onEveryPathTo_iff]
  exact forced_exact_iff bbset.edge_iff_succ

/-! ## Calls -/

/-- The iteration for one of the two kinds of sets, if it is asked for. -/
theorem compute_settles (bbset : Finset Nat) (neighbours : Nat → List Nat) (compute : Bool)
    (sets : Nat → Finset Nat) :
    ∃ last, Settles (fun fuel =>
        if compute then
          untilStable (refresh (joined bbset neighbours)) (bbset.sort (· ≤ ·)) fuel
            (initSelf bbset compute sets)
        else
          some (initSelf bbset compute sets)) last ∧
      (compute = true → ∀ bb ∈ bbset, ∀ through,
        through ∈ last bb ↔ Forced bbset neighbours through bb) := by
  cases compute with
  | false => exact ⟨_, ⟨0, fun _ _ => rfl⟩, nofun⟩
  | true =>
      obtain ⟨last, settles, members⟩ := @joined_settles neighbours (bbset.sort (· ≤ ·))
        (initSelf bbset true sets) bbset (fun bb => Finset.mem_sort _)
        fun bb inside => if_pos ⟨rfl, inside⟩
      exact ⟨last, settles, fun _ => members⟩

/-- `BB_SET_Calculate_Dominators` comes to an end, with the sets it is asked for if and only
if no cycle has a member outside of it on every path. -/
theorem BBSet.setCalculateDominators_settles (bbset : BBSet cfg) (computeDom computePdom : Bool)
    (map : DomMap) :
    ∃ result, Settles (cfg.setCalculateDominators bbset.members computeDom computePdom map)
        result ∧
      ((computeDom = true → ∀ bb ∈ bbset.members, bbset.ExactDom result bb) ↔
        (computeDom = true → bbset.UndominatedCycles)) ∧
      ((computePdom = true → ∀ bb ∈ bbset.members, bbset.ExactPdom result bb) ↔
        (computePdom = true → bbset.UnpostdominatedCycles)) := by
  obtain ⟨dom, domSettles, domMembers⟩ :=
    compute_settles bbset.members cfg.preds computeDom map.domSet
  obtain ⟨pdom, pdomSettles, pdomMembers⟩ :=
    compute_settles bbset.members cfg.succs computePdom map.pdomSet
  refine ⟨{ domSet := dom, pdomSet := pdom }, domSettles.bind (pdomSettles.map _), ?_, ?_⟩
  · refine forall_congr' fun compute => ?_
    rw [← bbset.dom_exact_iff]
    refine forall₂_congr fun bb inside => forall_congr' fun through => ?_
    rw [← domMembers compute bb inside]
  · refine forall_congr' fun compute => ?_
    rw [← bbset.pdom_exact_iff]
    refine forall₂_congr fun bb inside => forall_congr' fun through => ?_
    rw [← pdomMembers compute bb inside]

end OpenUH.Cg.Dominators
