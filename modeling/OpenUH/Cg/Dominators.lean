import Mathlib.Data.Finset.Sort
import OpenUH.Foundation.PathAvoidance
import OpenUH.Foundation.SweepIteration

/-!
# Dominators

The dominator and post-dominator sets of `dominate.cxx`: `Calculate_Dominators` for a whole
program unit, `BB_REGION_Calculate_Dominators` for a region whose borders have correct sets,
and `BB_SET_Calculate_Dominators` for a set of blocks by itself.  Blocks are their numbers,
and bit vectors are finite sets of numbers.
-/

namespace OpenUH.Cg.Dominators

open Foundation.Fallible
open Foundation.PathAvoidance
open Foundation.SweepIteration

/-! ## Control flow -/

/--
A control-flow graph.  `blocks` is the list of blocks from `REGION_First_BB` on, in any
order, and `count` is `PU_BB_Count`.
-/
structure Cfg where
  blocks : List Nat
  count : Nat
  preds : Nat → List Nat
  succs : Nat → List Nat
  entry : Nat → Bool
  exit : Nat → Bool
  nonempty : blocks ≠ []
  numbered : ∀ bb ∈ blocks, 1 ≤ bb ∧ bb ≤ count
  consistent : ∀ bb ∈ blocks, ∀ other ∈ blocks, other ∈ succs bb ↔ bb ∈ preds other
  predsInside : ∀ bb ∈ blocks, ∀ other ∈ preds bb, other ∈ blocks
  succsInside : ∀ bb ∈ blocks, ∀ other ∈ succs bb, other ∈ blocks
  exitSuccs : ∀ bb ∈ blocks, exit bb = true → succs bb = []
  reachable : ∀ bb ∈ blocks, ∃ path, IsPath (fun e => e ∈ blocks ∧ entry e = true)
    (fun a b => a ∈ blocks ∧ b ∈ succs a) bb path
  reachesExit : ∀ bb ∈ blocks, ∃ path, IsPathTo (fun e => e ∈ blocks ∧ exit e = true)
    (fun a b => a ∈ blocks ∧ b ∈ succs a) bb path

variable (cfg : Cfg)

def Cfg.isEntry (bb : Nat) : Prop := bb ∈ cfg.blocks ∧ cfg.entry bb = true

def Cfg.isExit (bb : Nat) : Prop := bb ∈ cfg.blocks ∧ cfg.exit bb = true

def Cfg.edge (bb next : Nat) : Prop := bb ∈ cfg.blocks ∧ next ∈ cfg.succs bb

/-- The dummy block before all entries. -/
def bbIdPreEntry : Nat := 0

/-- The dummy block after all exits. -/
def Cfg.bbIdPostExit : Nat := 1 + cfg.count

/-- `bb_dom_map`: the sets of every block. -/
structure DomMap where
  domSet : Nat → Finset Nat
  pdomSet : Nat → Finset Nat

/-! ## Loop bodies -/

/-- A block keeps of its set what all of its neighbours have in theirs, and itself; without
neighbours its set stays as it is. -/
def trimmed (neighbours : Nat → List Nat) (bb : Nat) (sets : Nat → Finset Nat) : Finset Nat :=
  match neighbours bb with
  | [] => sets bb
  | list => insert bb (list.foldl (fun src bbp => src ∩ sets bbp) (sets bb))

/-- A block adds to its set what its neighbours have in theirs. -/
def united (neighbours : Nat → List Nat) (bb : Nat) (sets : Nat → Finset Nat) : Finset Nat :=
  (neighbours bb).foldl (fun src bbp => src ∪ sets bbp) (sets bb)

/-- The body of the loop over the neighbours in `BB_SET_Calculate_Dominators`: the first one's
set, the intersection with the later ones', and nothing from one outside of the set on. -/
def meetNeighbour (bbset : Finset Nat) (sets : Nat → Finset Nat) (state : Bool × Finset Nat)
    (bbp : Nat) : Bool × Finset Nat :=
  if bbp ∈ bbset then
    if state.1 then (false, sets bbp) else (false, state.2 ∩ sets bbp)
  else
    (false, ∅)

/-- A block adds to its set what all of its neighbours have in theirs, where all of them are
in the set of blocks. -/
def joined (bbset : Finset Nat) (neighbours : Nat → List Nat) (bb : Nat)
    (sets : Nat → Finset Nat) : Finset Nat :=
  match neighbours bb with
  | [] => sets bb
  | list => (list.foldl (meetNeighbour bbset sets) (true, ∅)).2 ∪ sets bb

/-! ## Whole program units -/

/-- The initial dominators of `Init_BB_Dom_Info`. -/
def Cfg.initDomSet (domInit : Finset Nat) (bb : Nat) : Finset Nat :=
  if cfg.entry bb then insert bb (insert bbIdPreEntry ∅) else domInit

/-- The initial post-dominators of `Init_BB_Dom_Info`. -/
def Cfg.initPdomSet (bb : Nat) : Finset Nat :=
  if cfg.exit bb then insert cfg.bbIdPostExit (insert bb ∅) else insert bb ∅

/-- `Calculate_Dominators`, on any content of a new map. -/
def Cfg.calculateDominators (map : DomMap) (fuel : Nat) : Option DomMap :=
  let domInit := insert bbIdPreEntry cfg.blocks.toFinset
  let domSet := fun bb => if bb ∈ cfg.blocks then cfg.initDomSet domInit bb else map.domSet bb
  let pdomSet := fun bb => if bb ∈ cfg.blocks then cfg.initPdomSet bb else map.pdomSet bb
  (untilStable (refresh (trimmed cfg.preds)) cfg.blocks fuel domSet).bind fun domSet =>
    (untilStable (refresh (united cfg.succs)) cfg.blocks.reverse fuel pdomSet).bind
      fun pdomSet =>
        (untilStable (refresh (trimmed cfg.succs)) cfg.blocks.reverse fuel pdomSet).map
          fun pdomSet =>
            { domSet := fun bb =>
                if bb ∈ cfg.blocks then (domSet bb).erase bbIdPreEntry else domSet bb
              pdomSet := fun bb =>
                if bb ∈ cfg.blocks then (pdomSet bb).erase cfg.bbIdPostExit else pdomSet bb }

/-! ## Regions -/

/-- A region: its blocks are the ones on the paths from an entry that do not come to an
exit. -/
structure BBRegion where
  entries : List Nat
  exits : List Nat
  nonempty : entries ≠ []
  entriesInside : ∀ bb ∈ entries, bb ∈ cfg.blocks
  disjoint : ∀ bb ∈ entries, bb ∉ exits

variable {cfg}

/-- The traversal of `BB_REGION_to_Vector`, with the top of the stack first. -/
structure Traversal where
  stack : List Nat
  regionTemp : Finset Nat
  vector : List Nat

/-- One turn of the traversal. -/
def Cfg.traverse (cfg : Cfg) (traversal : Traversal) : Option Traversal :=
  match traversal.stack with
  | [] => none
  | bb :: rest =>
      let regionTemp := insert bb traversal.regionTemp
      some
        { stack := (cfg.succs bb).foldl
            (fun stack succ => if succ ∈ regionTemp then stack else succ :: stack) rest
          regionTemp := regionTemp
          vector := traversal.vector ++ [bb] }

/-- `BB_REGION_to_Vector`. -/
def BBRegion.toVector (region : BBRegion cfg) (fuel : Nat) : Option (List Nat) :=
  (whileLoop (fun traversal => !traversal.stack.isEmpty) cfg.traverse fuel
    { stack := region.entries.reverse
      regionTemp := region.exits.toFinset
      vector := [] }).map Traversal.vector

/-- The blocks that the loop for post-dominators visits, which counts down from the last
index of the vector and stops at zero. -/
def countedDown (vector : List Nat) : List Nat :=
  match vector.reverse with
  | [] => []
  | last :: earlier => last :: earlier.dropLast

/-- `BB_REGION_Calculate_Dominators`. -/
def BBRegion.calculateDominators (region : BBRegion cfg) (map : DomMap) (fuel : Nat) :
    Option DomMap :=
  (region.toVector fuel).bind fun regionBBs =>
    let bsTmp := Finset.range (cfg.count + 2)
    let domSet := fun bb =>
      if bb ∈ regionBBs then (if cfg.preds bb ≠ [] then bsTmp else insert bb ∅)
      else map.domSet bb
    let pdomSet := fun bb =>
      if bb ∈ regionBBs then (if cfg.succs bb ≠ [] then bsTmp else insert bb ∅)
      else map.pdomSet bb
    (untilStable (refresh (trimmed cfg.preds)) regionBBs fuel domSet).bind fun domSet =>
      (untilStable (refresh (trimmed cfg.succs)) (countedDown regionBBs) fuel pdomSet).map
        fun pdomSet => { domSet := domSet, pdomSet := pdomSet }

/-! ## Sets of blocks -/

/-- The initial sets of the members. -/
def initSelf (bbset : Finset Nat) (compute : Bool) (sets : Nat → Finset Nat) : Nat → Finset Nat :=
  fun bb => if compute = true ∧ bb ∈ bbset then insert bb ∅ else sets bb

/-- `BB_SET_Calculate_Dominators`. -/
def Cfg.setCalculateDominators (cfg : Cfg) (bbset : Finset Nat) (computeDom computePdom : Bool)
    (map : DomMap) (fuel : Nat) : Option DomMap :=
  let setBBs := bbset.sort (· ≤ ·)
  let domSet := initSelf bbset computeDom map.domSet
  let pdomSet := initSelf bbset computePdom map.pdomSet
  (if computeDom then
    untilStable (refresh (joined bbset cfg.preds)) setBBs fuel domSet
  else
    some domSet).bind fun domSet =>
    (if computePdom then
      untilStable (refresh (joined bbset cfg.succs)) setBBs fuel pdomSet
    else
      some pdomSet).map fun pdomSet => { domSet := domSet, pdomSet := pdomSet }

end OpenUH.Cg.Dominators
