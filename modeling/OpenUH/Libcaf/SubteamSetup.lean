import OpenUH.Libcaf.TeamMapping
import Mathlib.Data.List.Induction
import Mathlib.Data.List.Nodup

/-!
# What `__setup_subteams` prepares

Every image counts the exchanged team ids and prepares, for its own team and
for each sibling, an empty mapping whose length is the number of images that
chose the id.
-/

namespace OpenUH.Libcaf.TeamFormation

/-- How many images chose a team id. -/
def teamCount (infoList : List TeamInfo) (teamId : Int) : Nat :=
  infoList.countP fun info => info.teamId = teamId

theorem teamCount_append (infoList : List TeamInfo) (info : TeamInfo) (teamId : Int) :
    teamCount (infoList ++ [info]) teamId =
      teamCount infoList teamId + if info.teamId = teamId then 1 else 0 := by
  simp [teamCount, List.countP_append, List.countP_cons]

theorem teamCount_pos_of_mem {infoList : List TeamInfo} {info : TeamInfo}
    (member : info ∈ infoList) :
    0 < teamCount infoList info.teamId := by
  rw [teamCount, List.countP_pos_iff]
  exact ⟨info, member, by simp⟩

/-! ## The counting loop -/

/-- `HASH_FIND_INT` on the metadata list. -/
def findNode (nodes : List HashedMetadataNode) (teamId : Int) : Option HashedMetadataNode :=
  nodes.find? fun node => node.id = teamId

theorem findNode_countTeamId (nodes : List HashedMetadataNode) (teamId other : Int) :
    findNode (countTeamId nodes teamId) other =
      if other = teamId then
        some
          { id := teamId
            count := ((findNode nodes teamId).map (·.count)).getD 0 + 1 }
      else
        findNode nodes other := by
  induction nodes with
  | nil =>
      by_cases same : other = teamId
      · simp [countTeamId, findNode, same]
      · simp [countTeamId, findNode, same, Ne.symm same]
  | cons node rest ih =>
      unfold findNode at ih ⊢
      by_cases here : node.id = teamId
      · by_cases same : other = teamId
        · subst same
          simp [countTeamId, here]
        · simp [countTeamId, here, same, Ne.symm same]
      · by_cases same : other = teamId
        · subst same
          simp [countTeamId, here, ih]
        · by_cases found : node.id = other
          · simp [countTeamId, same, found]
          · simp [countTeamId, here, same, found, ih]

theorem map_id_countTeamId (nodes : List HashedMetadataNode) (teamId : Int) :
    (countTeamId nodes teamId).map (·.id) =
      if teamId ∈ nodes.map (·.id) then
        nodes.map (·.id)
      else
        nodes.map (·.id) ++ [teamId] := by
  induction nodes with
  | nil => rfl
  | cons node rest ih =>
      by_cases here : node.id = teamId
      · simp [countTeamId, here]
      · rw [countTeamId, if_neg here, List.map_cons, ih]
        by_cases later : teamId ∈ rest.map (·.id)
        · rw [if_pos later, if_pos (by simp [List.mem_map] at later ⊢; simp_all)]
          rfl
        · rw [if_neg later, if_neg (by simp [List.mem_map] at later ⊢; exact ⟨Ne.symm here, later⟩)]
          rfl

theorem nodup_hashedMdList (infoList : List TeamInfo) :
    ((hashedMdList infoList).map (·.id)).Nodup := by
  induction infoList using List.reverseRecOn with
  | nil => exact List.nodup_nil
  | append_singleton infoList info ih =>
      rw [hashedMdList, List.foldl_append, List.foldl_cons, List.foldl_nil, map_id_countTeamId]
      split
      · exact ih
      · rename_i fresh
        rw [← List.concat_eq_append]
        exact (List.nodup_concat _ _).mpr ⟨fresh, ih⟩

/-- The metadata list counts exactly the images that chose each id. -/
theorem findNode_hashedMdList (infoList : List TeamInfo) (teamId : Int) :
    findNode (hashedMdList infoList) teamId =
      if teamCount infoList teamId = 0 then
        none
      else
        some { id := teamId, count := teamCount infoList teamId } := by
  induction infoList using List.reverseRecOn generalizing teamId with
  | nil => rfl
  | append_singleton infoList info ih =>
      rw [hashedMdList, List.foldl_append, List.foldl_cons, List.foldl_nil,
        findNode_countTeamId, teamCount_append]
      change
        (if teamId = info.teamId then
          some
            { id := info.teamId
              count :=
                ((findNode (hashedMdList infoList) info.teamId).map
                  (·.count)).getD 0 + 1 : HashedMetadataNode }
        else findNode (hashedMdList infoList) teamId) = _
      rw [ih, ih]
      by_cases same : teamId = info.teamId
      · subst same
        by_cases none : teamCount infoList info.teamId = 0
        · simp [none]
        · simp [none]
      · simp [same, Ne.symm same]

/-! ## The own team and its siblings -/

/-- The sibling node made from a metadata node. -/
def siblingOf (node : HashedMetadataNode) : HashedCdMapping where
  teamId := node.id
  numImages := node.count
  codimensionMapping := emptyMapping node.count

theorem findSibling_append (siblings more : List HashedCdMapping) (teamId : Int) :
    findSibling (siblings ++ more) teamId =
      (findSibling siblings teamId).or (findSibling more teamId) := by
  simp [findSibling, List.find?_append]

theorem findSibling_foldl_setupNode (myTeamId teamId : Int) (distinct : teamId ≠ myTeamId)
    (nodes : List HashedMetadataNode) (newTeam : Team) :
    findSibling (nodes.foldl (setupNode myTeamId) newTeam).siblingList teamId =
      (findSibling newTeam.siblingList teamId).or ((findNode nodes teamId).map siblingOf) := by
  induction nodes generalizing newTeam with
  | nil => simp [findNode]
  | cons node rest ih =>
      rw [List.foldl_cons, ih]
      by_cases own : node.id = myTeamId
      · have elsewhere : ¬ node.id = teamId := fun equal =>
          distinct (equal.symm.trans own)
        simp [setupNode, own, findNode, Ne.symm distinct]
      · cases present : findSibling newTeam.siblingList node.id with
        | some sibling =>
            by_cases here : node.id = teamId
            · subst here
              simp [setupNode, own, present]
            · simp [setupNode, own, present, findNode, here]
        | none =>
            by_cases here : node.id = teamId
            · subst here
              simp [setupNode, own, present, findSibling_append, findNode]
              simp [findSibling, siblingOf]
            · simp [setupNode, own, present, findSibling_append, findNode, here]
              simp [findSibling, here]

theorem own_foldl_setupNode_of_absent
    (myTeamId : Int) (nodes : List HashedMetadataNode) (newTeam : Team)
    (absent : myTeamId ∉ nodes.map (·.id)) :
    let after := nodes.foldl (setupNode myTeamId) newTeam
    after.teamId = newTeam.teamId ∧
      after.currentNumImages = newTeam.currentNumImages ∧
      after.codimensionMapping = newTeam.codimensionMapping := by
  induction nodes generalizing newTeam with
  | nil => exact ⟨rfl, rfl, rfl⟩
  | cons node rest ih =>
      rw [List.map_cons, List.mem_cons, not_or] at absent
      have rest := ih (setupNode myTeamId newTeam node) absent.2
      have kept :
          (setupNode myTeamId newTeam node).teamId = newTeam.teamId ∧
            (setupNode myTeamId newTeam node).currentNumImages = newTeam.currentNumImages ∧
            (setupNode myTeamId newTeam node).codimensionMapping = newTeam.codimensionMapping := by
        rw [setupNode, if_pos (Ne.symm absent.1)]
        split <;> exact ⟨rfl, rfl, rfl⟩
      exact ⟨rest.1.trans kept.1, rest.2.1.trans kept.2.1, rest.2.2.trans kept.2.2⟩

theorem own_foldl_setupNode (myTeamId : Int) (nodes : List HashedMetadataNode) (newTeam : Team)
    (nodup : (nodes.map (·.id)).Nodup)
    {node : HashedMetadataNode} (found : findNode nodes myTeamId = some node) :
    let after := nodes.foldl (setupNode myTeamId) newTeam
    after.teamId = myTeamId ∧ after.currentNumImages = node.count ∧
      after.codimensionMapping = emptyMapping node.count := by
  induction nodes generalizing newTeam with
  | nil => simp [findNode] at found
  | cons first rest ih =>
      rw [List.map_cons, List.nodup_cons] at nodup
      by_cases own : first.id = myTeamId
      · have firstFound : first = node := by
          simpa [findNode, own] using found
        subst firstFound
        have kept := own_foldl_setupNode_of_absent myTeamId rest
          (setupNode myTeamId newTeam first) (own ▸ nodup.1)
        rw [setupNode, if_neg (not_not.mpr own)] at kept
        rw [List.foldl_cons, setupNode, if_neg (not_not.mpr own)]
        exact kept
      · have later : findNode rest myTeamId = some node := by
          simpa [findNode, own] using found
        exact ih (setupNode myTeamId newTeam first) nodup.2 later

/-- The own team starts with an empty mapping of the counted length. -/
theorem setupSubteams_own (infoList : List TeamInfo) (myTeamId : Int)
    (chosen : 0 < teamCount infoList myTeamId) :
    (setupSubteams infoList myTeamId).teamId = myTeamId ∧
      (setupSubteams infoList myTeamId).currentNumImages = teamCount infoList myTeamId ∧
      (setupSubteams infoList myTeamId).codimensionMapping =
        emptyMapping (teamCount infoList myTeamId) := by
  have found := findNode_hashedMdList infoList myTeamId
  rw [if_neg (Nat.pos_iff_ne_zero.mp chosen)] at found
  exact own_foldl_setupNode myTeamId _ {} (nodup_hashedMdList infoList) found

/-- Every other team id that was chosen has a sibling node. -/
theorem setupSubteams_sibling (infoList : List TeamInfo) (myTeamId teamId : Int)
    (distinct : teamId ≠ myTeamId) (chosen : 0 < teamCount infoList teamId) :
    findSibling (setupSubteams infoList myTeamId).siblingList teamId =
      some
        { teamId := teamId
          numImages := teamCount infoList teamId
          codimensionMapping := emptyMapping (teamCount infoList teamId) } := by
  rw [setupSubteams, findSibling_foldl_setupNode myTeamId teamId distinct,
    findNode_hashedMdList, if_neg (Nat.pos_iff_ne_zero.mp chosen)]
  rfl

end OpenUH.Libcaf.TeamFormation
