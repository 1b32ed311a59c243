import OpenUH.Libcaf.SubteamSetup
import Mathlib.Data.List.GetD
import Mathlib.Data.Set.Function

/-!
# Agreement of FORM TEAM across images

Every image places all images of its current team by itself, its own team
with one piece of code and the sibling teams with another.  The passes of an
image are simulated by one mapping per team id (`Represents`), so that all
images, members and outsiders alike, compute the same mapping for a team.
-/

namespace OpenUH.Libcaf.TeamFormation

/-- The members of the current team that chose a team id, in rank order. -/
def chosen (teamId : Int) (members : List (TeamInfo × Int)) : List (TeamInfo × Int) :=
  members.filter fun member => member.1.teamId = teamId

theorem chosen_cons (teamId : Int) (member : TeamInfo × Int) (members : List (TeamInfo × Int)) :
    chosen teamId (member :: members) =
      if member.1.teamId = teamId then
        member :: chosen teamId members
      else
        chosen teamId members := by
  by_cases same : member.1.teamId = teamId <;> simp [chosen, same]

/-! ## One mapping per team id simulates the passes of an image -/

/-- An image of team `myTeamId` holds the given mapping of every team. -/
structure Represents (infoList : List TeamInfo) (myTeamId : Int)
    (team : Team) (maps : Int → List Int) : Prop where
  teamId : team.teamId = myTeamId
  count : team.currentNumImages = teamCount infoList myTeamId
  own : team.codimensionMapping = maps myTeamId
  sibling : ∀ teamId, teamId ≠ myTeamId → 0 < teamCount infoList teamId →
    ∃ node, findSibling team.siblingList teamId = some node ∧
      node.numImages = teamCount infoList teamId ∧
      node.codimensionMapping = maps teamId

theorem findSibling_setSibling (siblings : List HashedCdMapping) (teamId other : Int)
    (mapping : List Int) :
    findSibling (setSibling siblings teamId mapping) other =
      if other = teamId then
        (findSibling siblings teamId).map fun node =>
          { node with codimensionMapping := mapping }
      else
        findSibling siblings other := by
  unfold findSibling setSibling
  induction siblings with
  | nil => simp
  | cons node rest ih =>
      rw [List.map_cons, List.find?_cons, ih]
      by_cases here : node.teamId = teamId
      · by_cases same : other = teamId
        · subst same
          simp [here]
        · simp [here, same, Ne.symm same]
      · by_cases same : other = teamId
        · subst same
          simp [here]
        · by_cases found : node.teamId = other <;> simp [here, same, found]

variable {infoList : List TeamInfo} {maps : Int → List Int}

/-- Rewriting the own mapping. -/
theorem Represents.setOwn {myTeamId : Int} {team : Team}
    (represents : Represents infoList myTeamId team maps)
    {teamId : Int} (own : teamId = myTeamId) (mapping : List Int) :
    Represents infoList myTeamId
      { team with codimensionMapping := mapping }
      (Function.update maps teamId mapping) where
  teamId := represents.teamId
  count := represents.count
  own := by simp [own]
  sibling := by
    intro other distinct positive
    rw [Function.update_of_ne fun equal => distinct (equal.trans own)]
    exact represents.sibling other distinct positive

/-- Rewriting the mapping of a sibling. -/
theorem Represents.setSibling {myTeamId : Int} {team : Team}
    (represents : Represents infoList myTeamId team maps)
    {teamId : Int} (distinct : teamId ≠ myTeamId) (mapping : List Int) :
    Represents infoList myTeamId
      { team with
        siblingList := setSibling team.siblingList teamId mapping }
      (Function.update maps teamId mapping) where
  teamId := represents.teamId
  count := represents.count
  own := by
    rw [Function.update_of_ne (Ne.symm distinct)]
    exact represents.own
  sibling := by
    intro other otherDistinct positive
    obtain ⟨node, found, count, mappingEq⟩ := represents.sibling other otherDistinct positive
    rw [findSibling_setSibling]
    by_cases same : other = teamId
    · subst same
      refine ⟨{ node with codimensionMapping := mapping }, ?_, count, ?_⟩
      · simp [found]
      · simp
    · rw [if_neg same, Function.update_of_ne same]
      exact ⟨node, found, count, mappingEq⟩

/-- A pass is simulated when each successful one-team write is matched. -/
def Simulated (infoList : List TeamInfo) (place : Team → TeamInfo × Int → Except Fault Team)
    (write : Nat → List Int → TeamInfo × Int → Except Fault (List Int)) :
    Prop :=
  ∀ (myTeamId : Int) (team : Team) (maps : Int → List Int)
    (member : TeamInfo × Int) (mapping : List Int),
    Represents infoList myTeamId team maps →
    0 < teamCount infoList member.1.teamId →
    write (teamCount infoList member.1.teamId) (maps member.1.teamId) member =
      .ok mapping →
    ∃ after, place team member = .ok after ∧
      Represents infoList myTeamId after
        (Function.update maps member.1.teamId mapping)

theorem Represents.unchanged {myTeamId : Int} {team : Team}
    (represents : Represents infoList myTeamId team maps) (teamId : Int) :
    Represents infoList myTeamId team (Function.update maps teamId (maps teamId)) := by
  rw [Function.update_eq_self]
  exact represents

/-- The first pass is simulated by `assertOwn`, on both code paths. -/
theorem placeAsserted_simulated (infoList : List TeamInfo) :
    Simulated infoList placeAsserted assertOwn := by
  intro myTeamId team maps member mapping represents positive written
  by_cases zero : member.1.index = 0
  · have same : mapping = maps member.1.teamId := by
      simpa [assertOwn, zero, eq_comm] using written
    subst same
    exact ⟨team, by simp [placeAsserted, zero], represents.unchanged _⟩
  · obtain ⟨indexPos, indexLe, free, rfl⟩ := assertOwn_eq_ok zero written
    have placed (text : String) :
        placeAt text (maps member.1.teamId) member.1.index member.2 =
          .ok ((maps member.1.teamId).set (member.1.index - 1).toNat member.2) :=
      placeAt_eq_ok_iff.mpr ⟨free, rfl⟩
    by_cases own : member.1.teamId = myTeamId
    · have inTeam : ¬ (member.1.index < 0 ∨ member.1.index > (team.currentNumImages : Int)) := by
        rw [represents.count, ← own]
        omega
      have ownMap : team.codimensionMapping = maps member.1.teamId := by
        rw [own, represents.own]
      refine ⟨_, ?_, represents.setOwn own _⟩
      rw [placeAsserted, if_pos zero,
        if_pos (own.trans represents.teamId.symm), if_neg inTeam, ownMap,
        placed]
      rfl
    · obtain ⟨node, found, -, mapEq⟩ :=
        represents.sibling member.1.teamId own positive
      refine ⟨_, ?_, represents.setSibling own _⟩
      rw [placeAsserted, if_pos zero,
        if_neg fun equal => own (equal.trans represents.teamId), found]
      simp only
      rw [if_neg (by omega), mapEq, placed]
      rfl

/-- The second-pass write into the mapping of one team. -/
def fillOwn (_count : Nat) (mapping : List Int) (member : TeamInfo × Int) :
    Except Fault (List Int) :=
  if member.1.index = 0 then
    placeFirstFree mapping member.2
  else
    .ok mapping

/-- The second pass is simulated by `fillOwn`, on both code paths. -/
theorem placeUnasserted_simulated (infoList : List TeamInfo) :
    Simulated infoList placeUnasserted fillOwn := by
  intro myTeamId team maps member mapping represents positive written
  by_cases zero : member.1.index = 0
  · rw [fillOwn, if_pos zero] at written
    by_cases own : member.1.teamId = myTeamId
    · have ownMap : team.codimensionMapping = maps member.1.teamId := by
        rw [own, represents.own]
      refine ⟨_, ?_, represents.setOwn own _⟩
      rw [placeUnasserted, if_pos zero, if_pos (own.trans represents.teamId.symm), ownMap, written]
      rfl
    · obtain ⟨node, found, -, mapEq⟩ :=
        represents.sibling member.1.teamId own positive
      refine ⟨_, ?_, represents.setSibling own _⟩
      rw [placeUnasserted, if_pos zero,
        if_neg fun equal => own (equal.trans represents.teamId), found]
      simp only
      rw [mapEq, written]
      rfl
  · have same : mapping = maps member.1.teamId := by
      simpa [fillOwn, zero, eq_comm] using written
    subst same
    exact ⟨team, by simp [placeUnasserted, zero], represents.unchanged _⟩

/-- A whole pass: if every team's own writes succeed, so does the image's. -/
theorem Simulated.foldlM {place : Team → TeamInfo × Int → Except Fault Team}
    {write : Nat → List Int → TeamInfo × Int → Except Fault (List Int)}
    (simulated : Simulated infoList place write)
    {myTeamId : Int} {team : Team} {maps final : Int → List Int} {members : List (TeamInfo × Int)}
    (counted : ∀ member ∈ members, 0 < teamCount infoList member.1.teamId)
    (represents : Represents infoList myTeamId team maps)
    (writes : ∀ teamId,
      (chosen teamId members).foldlM (write (teamCount infoList teamId))
        (maps teamId) = .ok (final teamId)) :
    ∃ after, members.foldlM place team = .ok after ∧ Represents infoList myTeamId after final := by
  induction members generalizing team maps with
  | nil =>
      have same : maps = final := by
        funext teamId
        simpa [chosen, pure, Except.pure] using writes teamId
      exact ⟨team, rfl, same ▸ represents⟩
  | cons member members ih =>
      have here := writes member.1.teamId
      rw [chosen_cons, if_pos rfl, List.foldlM_cons] at here
      cases written : write (teamCount infoList member.1.teamId) (maps member.1.teamId) member with
      | error fault =>
          rw [written] at here
          cases here
      | ok mapping =>
          rw [written] at here
          obtain ⟨middle, placed, middleRepresents⟩ :=
            simulated myTeamId team maps member mapping represents
              (counted member (by simp)) written
          have restWrites : ∀ teamId,
              (chosen teamId members).foldlM
                  (write (teamCount infoList teamId))
                  (Function.update maps member.1.teamId mapping teamId) =
                .ok (final teamId) := by
            intro teamId
            by_cases same : teamId = member.1.teamId
            · subst same
              rw [Function.update_self]
              exact here
            · rw [Function.update_of_ne same]
              have other := writes teamId
              rw [chosen_cons, if_neg (Ne.symm same)] at other
              exact other
          obtain ⟨after, ran, afterRepresents⟩ :=
            ih
              (fun other memberOf => counted other (by simp [memberOf]))
              middleRepresents restWrites
          refine ⟨after, ?_, afterRepresents⟩
          rw [List.foldlM_cons, placed]
          exact ran

/-! ## Without an Error every own-team write succeeds -/

/-- A failing own-team test is an Error on the members of that team. -/
theorem placeAsserted_error {team : Team} {member : TeamInfo × Int} {text : String}
    (represents : Represents infoList member.1.teamId team maps)
    (failed :
      assertOwn (teamCount infoList member.1.teamId)
        (maps member.1.teamId) member = .error (.error text)) :
    placeAsserted team member = .error (.error text) := by
  unfold assertOwn at failed
  rw [placeAsserted, if_pos represents.teamId.symm, represents.count, represents.own]
  split at failed
  · rename_i nonzero
    rw [if_pos nonzero]
    split at failed
    · rename_i bad
      rw [if_pos bad]
      cases failed
      rfl
    · rename_i inRange
      rw [if_neg inRange, failed]
      rfl
  · cases failed

/--
If no image raises an Error in the first pass, the own-team writes of every
team succeed: the first image whose write would fail runs into its own test.
-/
theorem assertOwn_writes_of_noError {teams : Int → Team} {members : List (TeamInfo × Int)}
    (counted : ∀ member ∈ members, 0 < teamCount infoList member.1.teamId)
    (lengths : ∀ teamId, (maps teamId).length = teamCount infoList teamId)
    (represents : ∀ myTeamId, 0 < teamCount infoList myTeamId →
      Represents infoList myTeamId (teams myTeamId) maps)
    (noError : ∀ myTeamId, 0 < teamCount infoList myTeamId → ∀ text,
      members.foldlM placeAsserted (teams myTeamId) ≠ .error (.error text))
    (teamId : Int) :
    ∃ mapping,
      (chosen teamId members).foldlM
        (assertOwn (teamCount infoList teamId)) (maps teamId) = .ok mapping := by
  induction members generalizing teams maps with
  | nil => exact ⟨maps teamId, rfl⟩
  | cons member members ih =>
      have positive := counted member (by simp)
      cases written :
          assertOwn (teamCount infoList member.1.teamId) (maps member.1.teamId) member with
      | error fault =>
          obtain ⟨text, rfl⟩ := assertOwn_error (lengths _) written
          exfalso
          apply noError member.1.teamId positive text
          rw [List.foldlM_cons, placeAsserted_error (represents _ positive) written]
          rfl
      | ok mapping =>
          have stepped : ∀ myTeamId, 0 < teamCount infoList myTeamId →
              ∃ after, placeAsserted (teams myTeamId) member = .ok after ∧
                Represents infoList myTeamId after (Function.update maps member.1.teamId mapping) :=
            fun myTeamId myPositive =>
              placeAsserted_simulated infoList myTeamId _ maps member mapping
                (represents myTeamId myPositive) positive written
          choose! after placed afterRepresents using stepped
          have mappingLength : mapping.length = teamCount infoList member.1.teamId := by
            by_cases zero : member.1.index = 0
            · have same : mapping = maps member.1.teamId := by
                simpa [assertOwn, zero, eq_comm] using written
              rw [same, lengths]
            · obtain ⟨-, -, -, rfl⟩ := assertOwn_eq_ok zero written
              rw [List.length_set, lengths]
          have afterLengths : ∀ other,
              (Function.update maps member.1.teamId mapping other).length =
                teamCount infoList other := by
            intro other
            by_cases same : other = member.1.teamId
            · subst same
              rw [Function.update_self, mappingLength]
            · rw [Function.update_of_ne same, lengths]
          have afterNoError : ∀ myTeamId, 0 < teamCount infoList myTeamId →
              ∀ text, members.foldlM placeAsserted (after myTeamId) ≠ .error (.error text) := by
            intro myTeamId myPositive text failed
            apply noError myTeamId myPositive text
            rw [List.foldlM_cons, placed myTeamId myPositive]
            exact failed
          obtain ⟨final, rest⟩ :=
            ih
              (fun other memberOf => counted other (by simp [memberOf]))
              afterLengths afterRepresents afterNoError
          refine ⟨final, ?_⟩
          rw [chosen_cons]
          by_cases same : member.1.teamId = teamId
          · subst same
            rw [Function.update_self] at rest
            rw [if_pos rfl, List.foldlM_cons, written]
            exact rest
          · rw [Function.update_of_ne (Ne.symm same)] at rest
            rw [if_neg same]
            exact rest

/-! ## What a team's mapping is -/

/-- The mapping that the images of a current team should give to a team id. -/
structure IsTeamMapping (infoList : List TeamInfo) (procs : List Int)
    (teamId : Int) (mapping : List Int) : Prop where
  length : mapping.length = teamCount infoList teamId
  bijective :
    Set.BijOn (fun position => mapping.getD (position - 1) (-1))
      (Set.Icc 1 (teamCount infoList teamId))
      { proc | ∃ (rank : Nat) (info : TeamInfo),
          infoList[rank]? = some info ∧ info.teamId = teamId ∧
            procs[rank]? = some proc }
  asserted : ∀ (rank : Nat) (info : TeamInfo),
    infoList[rank]? = some info → info.teamId = teamId → info.index ≠ 0 →
      1 ≤ info.index ∧ info.index ≤ teamCount infoList teamId ∧
        mapping[(info.index - 1).toNat]? = procs[rank]?
  inRankOrder :
    ((List.range (teamCount infoList teamId)).filter fun (position : Nat) =>
        ∀ info ∈ infoList, info.teamId = teamId → info.index ≠ position + 1).map
      (fun position => mapping.getD position (-1)) =
    ((infoList.zip procs).filter fun member =>
        member.1.teamId = teamId ∧ member.1.index = 0).map (·.2)

variable {procs : List Int}

theorem mem_chosen_zip {teamId : Int} {member : TeamInfo × Int} :
    member ∈ chosen teamId (infoList.zip procs) ↔
      ∃ rank : Nat, infoList[rank]? = some member.1 ∧
        member.1.teamId = teamId ∧ procs[rank]? = some member.2 := by
  rw [chosen, List.mem_filter, List.mem_iff_getElem?]
  simp only [List.getElem?_zip_eq_some, decide_eq_true_eq]
  constructor
  · rintro ⟨⟨rank, info, proc⟩, same⟩
    exact ⟨rank, info, same, proc⟩
  · rintro ⟨rank, info, same, proc⟩
    exact ⟨⟨rank, info, proc⟩, same⟩

theorem length_chosen_zip (infoList : List TeamInfo) (procs : List Int) (teamId : Int)
    (sameLength : infoList.length = procs.length) :
    (chosen teamId (infoList.zip procs)).length = teamCount infoList teamId := by
  induction infoList generalizing procs with
  | nil => rfl
  | cons info infoList ih =>
      cases procs with
      | nil => simp at sameLength
      | cons proc procs =>
          have rest := ih procs (by simpa using sameLength)
          rw [List.zip_cons_cons, chosen_cons, teamCount, List.countP_cons]
          by_cases same : info.teamId = teamId
          · simp [same, rest, teamCount]
          · simp [same, rest, teamCount]

theorem nodup_chosen_zip (teamId : Int)
    (sameLength : infoList.length = procs.length) (nodup : procs.Nodup) :
    ((chosen teamId (infoList.zip procs)).map (·.2)).Nodup := by
  have sublist :
      ((chosen teamId (infoList.zip procs)).map (·.2)).Sublist ((infoList.zip procs).map (·.2)) :=
    List.filter_sublist.map _
  rw [List.map_snd_zip sameLength.ge] at sublist
  exact nodup.sublist sublist

/-- The two passes over the members of one team build its mapping. -/
theorem isTeamMapping_fillFree {teamId : Int}
    {asserted : List Int} (sameLength : infoList.length = procs.length)
    (nodup : procs.Nodup) (real : ∀ proc ∈ procs, proc ≠ -1)
    (result :
      AssertedResult (teamCount infoList teamId)
        (emptyMapping (teamCount infoList teamId))
        (chosen teamId (infoList.zip procs)) asserted) :
    let rest :=
      ((chosen teamId (infoList.zip procs)).filter
        fun member => member.1.index = 0).map (·.2)
    rest.length = asserted.count (-1) ∧
      IsTeamMapping infoList procs teamId (fillFree asserted rest) := by
  intro rest
  have assertedLength : asserted.length = teamCount infoList teamId := by
    rw [result.length, emptyMapping, List.length_replicate]
  have splitLength :
      ((chosen teamId (infoList.zip procs)).filter
          fun member => member.1.index ≠ 0).length + rest.length =
        teamCount infoList teamId := by
    rw [← length_chosen_zip infoList procs teamId sameLength, List.length_map]
    have split := List.length_eq_length_filter_add (l :=
      chosen teamId (infoList.zip procs)) (fun member => decide (member.1.index ≠ 0))
    simpa [decide_not] using split.symm
  have exact : rest.length = asserted.count (-1) := by
    have free := result.free
    rw [emptyMapping, List.count_replicate_self] at free
    omega
  have perm : (fillFree asserted rest).Perm ((chosen teamId (infoList.zip procs)).map (·.2)) := by
    have noFree : (emptyMapping (teamCount infoList teamId)).filter (· ≠ -1) = [] := by
      simp [emptyMapping]
    have assertedPerm := result.perm
    rw [noFree, List.nil_append] at assertedPerm
    refine (fillFree_perm asserted rest exact).trans ((assertedPerm.append_right rest).trans ?_)
    rw [← List.map_append]
    apply List.Perm.map
    have parts := List.filter_append_perm
      (fun member : TeamInfo × Int => decide (member.1.index ≠ 0))
      (chosen teamId (infoList.zip procs))
    simpa [decide_not] using parts
  have finalLength : (fillFree asserted rest).length = teamCount infoList teamId := by
    rw [fillFree_length, assertedLength]
  have finalNodup : (fillFree asserted rest).Nodup :=
    perm.nodup_iff.mpr (nodup_chosen_zip teamId sameLength nodup)
  refine ⟨exact, finalLength, ⟨?_, ?_, ?_⟩, ?_, ?_⟩
  · intro position bounds
    obtain ⟨low, high⟩ := bounds
    have inBounds : position - 1 < (fillFree asserted rest).length := by omega
    have member : (fillFree asserted rest)[position - 1] ∈
        (chosen teamId (infoList.zip procs)).map (·.2) :=
      perm.mem_iff.mp (List.getElem_mem inBounds)
    obtain ⟨pair, pairMem, procEq⟩ := List.mem_map.mp member
    obtain ⟨rank, info, same, proc⟩ := mem_chosen_zip.mp pairMem
    refine ⟨rank, pair.1, info, same, ?_⟩
    rw [proc, procEq]
    exact congrArg some (List.getD_eq_getElem _ _ inBounds).symm
  · intro left leftBounds right rightBounds equal
    obtain ⟨leftLow, leftHigh⟩ := leftBounds
    obtain ⟨rightLow, rightHigh⟩ := rightBounds
    have leftIn : left - 1 < (fillFree asserted rest).length := by omega
    have rightIn : right - 1 < (fillFree asserted rest).length := by omega
    have cells : (fillFree asserted rest)[left - 1] = (fillFree asserted rest)[right - 1] := by
      rw [← List.getD_eq_getElem _ (-1) leftIn, ← List.getD_eq_getElem _ (-1) rightIn]
      exact equal
    have := (finalNodup.getElem_inj_iff).mp cells
    omega
  · rintro proc ⟨rank, info, infoAt, same, procAt⟩
    have member : proc ∈ fillFree asserted rest := by
      apply perm.mem_iff.mpr
      exact List.mem_map.mpr ⟨(info, proc), mem_chosen_zip.mpr ⟨rank, infoAt, same, procAt⟩, rfl⟩
    obtain ⟨position, inBounds, cell⟩ := List.mem_iff_getElem.mp member
    refine ⟨position + 1, ⟨by omega, by omega⟩, ?_⟩
    exact (List.getD_eq_getElem _ _ inBounds).trans cell
  · intro rank info infoAt same nonzero
    have rankIn : rank < procs.length := by
      rw [← sameLength]
      exact (List.getElem?_eq_some_iff.mp infoAt).1
    have member : (info, procs[rank]) ∈ chosen teamId (infoList.zip procs) :=
      mem_chosen_zip.mpr ⟨rank, infoAt, same, by simp [rankIn]⟩
    obtain ⟨positive, inTeam, cell⟩ :
        0 < info.index ∧ info.index ≤ teamCount infoList teamId ∧
          asserted[(info.index - 1).toNat]? = some procs[rank] :=
      result.placed _ member nonzero
    refine ⟨by omega, inTeam, ?_⟩
    rw [List.getElem?_eq_getElem rankIn]
    exact getElem?_fillFree_occupied asserted rest _ _ cell (real _ (List.getElem_mem rankIn))
  · have cellFree : ∀ position < teamCount infoList teamId,
        (asserted.getD position 0 = -1 ↔
          ∀ info ∈ infoList, info.teamId = teamId → info.index ≠ (position : Int) + 1) := by
      intro position positionLt
      constructor
      · intro free info infoMem same indexEq
        obtain ⟨rank, infoIn, infoAt⟩ := List.mem_iff_getElem.mp infoMem
        have rankIn : rank < procs.length := sameLength ▸ infoIn
        have member : (info, procs[rank]) ∈ chosen teamId (infoList.zip procs) :=
          mem_chosen_zip.mpr
            ⟨rank, List.getElem?_eq_some_iff.mpr ⟨infoIn, infoAt⟩, same,
              List.getElem?_eq_getElem rankIn⟩
        obtain ⟨-, -, cell⟩ := result.placed _ member (show info.index ≠ 0 by omega)
        have here : (info.index - 1).toNat = position := by omega
        simp only [here] at cell
        rw [List.getD_eq_getElem?_getD, cell] at free
        exact real _ (List.getElem_mem rankIn) free
      · intro avoided
        rw [List.getD_eq_getElem?_getD, result.untouched position]
        · simp [emptyMapping, positionLt]
        · intro member memberMem
          obtain ⟨rank, infoAt, same, -⟩ := mem_chosen_zip.mp memberMem
          exact avoided member.1 (List.mem_of_getElem? infoAt) same
    have zipRange :
        (fillFree asserted rest).zip asserted =
          (List.range (teamCount infoList teamId)).map fun position =>
            ((fillFree asserted rest).getD position (-1), asserted.getD position 0) := by
      apply List.ext_getElem
      · simp [assertedLength]
      · intro position inZip inRange
        have : position < teamCount infoList teamId := by simpa using inRange
        simp [assertedLength, this]
    have reading := fillFree_free_positions asserted rest exact
    rw [zipRange, List.filter_map, List.map_map] at reading
    have sameFilter :
        (List.range (teamCount infoList teamId)).filter
            ((fun pair : Int × Int => decide (pair.2 = -1)) ∘ fun position =>
              ((fillFree asserted rest).getD position (-1), asserted.getD position 0)) =
          (List.range (teamCount infoList teamId)).filter
            fun (position : Nat) => ∀ info ∈ infoList,
              info.teamId = teamId → info.index ≠ (position : Int) + 1 := by
      apply List.filter_congr
      intro position positionMem
      have := cellFree position (List.mem_range.mp positionMem)
      simpa using this
    rw [sameFilter] at reading
    have restEq : rest = ((infoList.zip procs).filter fun member =>
            member.1.teamId = teamId ∧ member.1.index = 0).map (·.2) := by
      change List.map _ (List.filter _ (List.filter _ _)) = _
      rw [List.filter_filter]
      congr 1
      apply List.filter_congr
      intro member _
      simp [Bool.and_comm]
    rw [← restEq]
    exact reading

/-- The processes of a team mapping are those of the images that chose it. -/
theorem IsTeamMapping.mem_iff {procs mapping : List Int} {teamId proc : Int}
    (isMapping : IsTeamMapping infoList procs teamId mapping) :
    proc ∈ mapping ↔
      ∃ (rank : Nat) (info : TeamInfo),
        infoList[rank]? = some info ∧ info.teamId = teamId ∧ procs[rank]? = some proc := by
  constructor
  · intro member
    obtain ⟨position, inBounds, cell⟩ := List.mem_iff_getElem.mp member
    have bounds : position + 1 ∈ Set.Icc 1 (teamCount infoList teamId) := by
      rw [← isMapping.length]
      exact ⟨by omega, by omega⟩
    have image := isMapping.bijective.mapsTo bounds
    have cellEq : mapping.getD (position + 1 - 1) (-1) = proc := by
      rw [Nat.add_sub_cancel, List.getD_eq_getElem _ _ inBounds, cell]
    rwa [Set.mem_ofPred_eq, cellEq] at image
  · intro source
    obtain ⟨position, ⟨low, high⟩, cell⟩ := isMapping.bijective.surjOn source
    have inBounds : position - 1 < mapping.length := by
      rw [isMapping.length]
      omega
    have cellEq : mapping[position - 1] = proc :=
      (List.getD_eq_getElem _ (-1) inBounds).symm.trans cell
    exact cellEq ▸ List.getElem_mem inBounds

/-! ## FORM TEAM on all images of the current team -/

/--
A current team as its images know it: a shared mapping of distinct process
ids on existing nodes, and on every image the rank it has there.
-/
structure ParentTeam (nodeId : Int → Nat) (totalNumSupernodes : Nat) where
  numImages : Nat
  procs : List Int
  record : Nat → Team
  length : procs.length = numImages
  nodup : procs.Nodup
  nonneg : ∀ proc ∈ procs, 0 ≤ proc
  onNode : ∀ proc ∈ procs, nodeId proc < totalNumSupernodes
  mapping : ∀ rank < numImages, (record rank).codimensionMapping = procs
  thisImage : ∀ rank < numImages, (record rank).currentThisImage = rank + 1

/-- The id this image asks for, as it stands in the exchanged list. -/
def myTeamId (infoList : List TeamInfo) (rank : Nat) : Int :=
  (infoList.getD rank { teamId := 0, index := 0 }).teamId

/-- Set-up and placement of FORM TEAM on the image of a parent rank. -/
def formSubteam {nodeId : Int → Nat} {totalNumSupernodes : Nat}
    (parent : ParentTeam nodeId totalNumSupernodes)
    (infoList : List TeamInfo) (rank : Nat) : Except Fault Team :=
  placeCodimensionMapping nodeId totalNumSupernodes (parent.record rank)
    infoList (setupSubteams infoList (myTeamId infoList rank))

variable {totalNumSupernodes : Nat} {nodeId : Int → Nat}

theorem tmpLeaderSet_ok {mapping : List Int}
    (onNode : ∀ proc ∈ mapping, nodeId proc < totalNumSupernodes) :
    ∃ leaders, tmpLeaderSet nodeId totalNumSupernodes mapping = .ok leaders := by
  have loop : ∀ (positions : List (Int × Nat)) (leaders : List (Option Nat) × Nat),
      (∀ position ∈ positions, nodeId position.1 < totalNumSupernodes) →
      leaders.1.length = totalNumSupernodes →
      ∃ after, positions.foldlM (noteLeader nodeId) leaders = .ok after := by
    intro positions
    induction positions with
    | nil => exact fun leaders _ _ => ⟨leaders, rfl⟩
    | cons position positions ih =>
        intro leaders inNodes length
        have inBounds : nodeId position.1 < leaders.1.length := length ▸ inNodes position (by simp)
        have stepped : ∃ middle,
            noteLeader nodeId leaders position = .ok middle ∧
              middle.1.length = totalNumSupernodes := by
          unfold noteLeader
          rw [List.getElem?_eq_getElem inBounds]
          cases leaders.1[nodeId position.1] with
          | none => exact ⟨_, rfl, by simpa using length⟩
          | some leader =>
              by_cases later : leader > position.2
              · exact ⟨_, if_pos later, by simpa using length⟩
              · exact ⟨_, if_neg later, length⟩
        obtain ⟨middle, noted, middleLength⟩ := stepped
        obtain ⟨after, ran⟩ :=
          ih middle
            (fun other memberOf => inNodes other (by simp [memberOf]))
            middleLength
        exact ⟨after, by rw [List.foldlM_cons, noted]; exact ran⟩
  apply loop
  · intro position memberOf
    exact onNode _ (List.fst_mem_of_mem_zipIdx memberOf)
  · simp

theorem findThisImage_spec {mapping : List Int} {proc : Int} (member : proc ∈ mapping) :
    1 ≤ findThisImage mapping proc ∧
      findThisImage mapping proc ≤ mapping.length ∧
      mapping[findThisImage mapping proc - 1]? = some proc := by
  unfold findThisImage
  cases found : mapping.findIdx? (· = proc) with
  | none =>
      have absent := List.findIdx?_eq_none_iff.mp found proc member
      simp at absent
  | some position =>
      obtain ⟨inBounds, cell, -⟩ := List.findIdx?_eq_some_iff_getElem.mp found
      refine ⟨by simp, Nat.succ_le_of_lt inBounds, ?_⟩
      have cellEq : mapping[position] = proc := by simpa using cell
      simp [inBounds, cellEq]

/-- What is left of an image's FORM TEAM after its passes. -/
theorem placeCodimensionMapping_of_passes
    {currentTeam : Team} {newTeam asserted placed : Team} {proc : Int}
    (first : (infoList.zip currentTeam.codimensionMapping).foldlM
      placeAsserted newTeam = .ok asserted)
    (second : (infoList.zip currentTeam.codimensionMapping).foldlM
      placeUnasserted asserted = .ok placed)
    (procAt : currentTeam.codimensionMapping[currentTeam.currentThisImage - 1]? = some proc) :
    placeCodimensionMapping nodeId totalNumSupernodes currentTeam infoList
        newTeam =
      (tmpLeaderSet nodeId totalNumSupernodes placed.codimensionMapping).map
        fun leaders =>
          { placed with
            currentThisImage := findThisImage placed.codimensionMapping proc
            intranodeSet := formIntranodeSet currentTeam placed
            leaderSet := collectLeaders placed.codimensionMapping leaders.1
            leadersCount := leaders.2 } := by
  rw [placeCodimensionMapping, placeAndFind, placePasses, first]
  simp only [Except.bind, second, procAt]
  rfl

/-- The passes of an image, given the mappings its passes leave. -/
theorem placeCodimensionMapping_ok
    {currentTeam : Team} {newTeam asserted placed : Team} {proc : Int}
    (first : (infoList.zip currentTeam.codimensionMapping).foldlM
      placeAsserted newTeam = .ok asserted)
    (second : (infoList.zip currentTeam.codimensionMapping).foldlM
      placeUnasserted asserted = .ok placed)
    (procAt : currentTeam.codimensionMapping[currentTeam.currentThisImage - 1]? = some proc)
    (onNode : ∀ member ∈ placed.codimensionMapping, nodeId member < totalNumSupernodes) :
    ∃ after,
      placeCodimensionMapping nodeId totalNumSupernodes currentTeam infoList newTeam = .ok after ∧
      after.codimensionMapping = placed.codimensionMapping ∧
      after.currentNumImages = placed.currentNumImages ∧
      after.teamId = placed.teamId ∧
      after.siblingList = placed.siblingList ∧
      after.currentThisImage = findThisImage placed.codimensionMapping proc := by
  obtain ⟨leaders, leadersOk⟩ := tmpLeaderSet_ok onNode
  rw [placeCodimensionMapping_of_passes first second procAt, leadersOk]
  exact ⟨_, rfl, rfl, rfl, rfl, rfl, rfl⟩

/-- `__setup_subteams` gives every image empty mappings of the right lengths. -/
theorem represents_setupSubteams (infoList : List TeamInfo) {myTeamId : Int}
    (positive : 0 < teamCount infoList myTeamId) :
    Represents infoList myTeamId (setupSubteams infoList myTeamId)
      (fun teamId => emptyMapping (teamCount infoList teamId)) where
  teamId := (setupSubteams_own infoList myTeamId positive).1
  count := (setupSubteams_own infoList myTeamId positive).2.1
  own := (setupSubteams_own infoList myTeamId positive).2.2
  sibling := by
    intro teamId distinct siblingPositive
    exact ⟨_, setupSubteams_sibling infoList myTeamId teamId distinct siblingPositive, rfl, rfl⟩

/-- The mapping every image ends up with, when nothing raises an Error. -/
theorem placePasses_agree (sameLength : infoList.length = procs.length)
    (nodup : procs.Nodup) (real : ∀ proc ∈ procs, proc ≠ -1)
    (noError : ∀ myTeamId, 0 < teamCount infoList myTeamId → ∀ text,
      (infoList.zip procs).foldlM placeAsserted
        (setupSubteams infoList myTeamId) ≠ .error (.error text)) :
    ∃ maps : Int → List Int,
      (∀ teamId, IsTeamMapping infoList procs teamId (maps teamId)) ∧
      ∀ myTeamId, 0 < teamCount infoList myTeamId →
        ∃ asserted placed,
          (infoList.zip procs).foldlM placeAsserted
            (setupSubteams infoList myTeamId) = .ok asserted ∧
          (infoList.zip procs).foldlM placeUnasserted asserted = .ok placed ∧
          Represents infoList myTeamId placed maps := by
  have counted : ∀ member ∈ infoList.zip procs, 0 < teamCount infoList member.1.teamId :=
    fun member memberOf => teamCount_pos_of_mem (List.of_mem_zip memberOf).1
  have realMembers : ∀ teamId, ∀ member ∈ chosen teamId (infoList.zip procs), member.2 ≠ -1 :=
    fun teamId member memberOf =>
      real _ (List.of_mem_zip (List.mem_filter.mp memberOf).1).2
  have writes := assertOwn_writes_of_noError counted (by simp [emptyMapping])
    (fun myTeamId positive => represents_setupSubteams infoList positive)
    noError
  choose assertedMaps assertedWrites using writes
  have results := fun teamId =>
    isTeamMapping_fillFree sameLength nodup real
      (assertedResult_of_foldlM (realMembers teamId) (assertedWrites teamId))
  refine ⟨fun teamId => fillFree (assertedMaps teamId)
    (((chosen teamId (infoList.zip procs)).filter
      fun member => member.1.index = 0).map (·.2)),
    fun teamId => (results teamId).2, ?_⟩
  intro myTeamId positive
  obtain ⟨asserted, first, assertedRepresents⟩ :=
    (placeAsserted_simulated infoList).foldlM counted
      (represents_setupSubteams infoList positive) assertedWrites
  have fills : ∀ teamId,
      (chosen teamId (infoList.zip procs)).foldlM
          (fillOwn (teamCount infoList teamId)) (assertedMaps teamId) =
        .ok (fillFree (assertedMaps teamId)
          (((chosen teamId (infoList.zip procs)).filter
            fun member => member.1.index = 0).map (·.2))) := by
    intro teamId
    rw [← foldlM_placeFirstFree _ _ _ (results teamId).1.le]
    · generalize assertedMaps teamId = mapping
      induction chosen teamId (infoList.zip procs) generalizing mapping with
      | nil => rfl
      | cons member members ih =>
          by_cases zero : member.1.index = 0
          · rw [List.foldlM_cons, fillOwn, if_pos zero,
              List.filter_cons_of_pos (by simpa using zero), List.map_cons,
              List.foldlM_cons]
            cases placeFirstFree mapping member.2 with
            | error fault => rfl
            | ok after => exact ih after
          · rw [List.foldlM_cons, fillOwn, if_neg zero,
              List.filter_cons_of_neg (by simpa using zero)]
            exact ih mapping
    · intro proc memberOf
      obtain ⟨member, memberMem, rfl⟩ := List.mem_map.mp memberOf
      exact realMembers teamId member (List.mem_filter.mp memberMem).1
  obtain ⟨placed, second, placedRepresents⟩ :=
    (placeUnasserted_simulated infoList).foldlM counted assertedRepresents fills
  exact ⟨asserted, placed, first, second, placedRepresents⟩

/-- An image whose passes represent the team mappings finishes FORM TEAM. -/
theorem formSubteam_finishes
    (parent : ParentTeam nodeId totalNumSupernodes) (infoList : List TeamInfo)
    (exchanged : infoList.length = parent.numImages)
    (isMapping : ∀ teamId, IsTeamMapping infoList parent.procs teamId (maps teamId))
    (passes : ∀ myTeamId, 0 < teamCount infoList myTeamId →
      ∃ asserted placed,
        (infoList.zip parent.procs).foldlM placeAsserted
          (setupSubteams infoList myTeamId) = .ok asserted ∧
        (infoList.zip parent.procs).foldlM placeUnasserted asserted = .ok placed ∧
        Represents infoList myTeamId placed maps)
    (rank : Nat) (rankLt : rank < parent.numImages) :
    ∃ after, formSubteam parent infoList rank = .ok after ∧
      Represents infoList (myTeamId infoList rank) after maps ∧
      1 ≤ after.currentThisImage ∧
      after.currentThisImage ≤ after.currentNumImages ∧
      after.codimensionMapping[after.currentThisImage - 1]? = parent.procs[rank]? := by
  have rankIn : rank < infoList.length := exchanged ▸ rankLt
  have procIn : rank < parent.procs.length := parent.length ▸ rankLt
  have myInfo : (infoList[rank]).teamId = myTeamId infoList rank := by
    rw [myTeamId, List.getD_eq_getElem _ _ rankIn]
  have positive : 0 < teamCount infoList (myTeamId infoList rank) :=
    myInfo ▸ teamCount_pos_of_mem (List.getElem_mem rankIn)
  obtain ⟨asserted, placed, first, second, represents⟩ := passes _ positive
  have mappingIs := isMapping (myTeamId infoList rank)
  rw [← represents.own] at mappingIs
  have mapped : ∀ proc ∈ placed.codimensionMapping, proc ∈ parent.procs := by
    intro proc memberOf
    obtain ⟨other, info, -, -, procAt⟩ := mappingIs.mem_iff.mp memberOf
    exact List.mem_of_getElem? procAt
  have own : parent.procs[rank] ∈ placed.codimensionMapping :=
    mappingIs.mem_iff.mpr
      ⟨rank, infoList[rank], List.getElem?_eq_getElem rankIn, myInfo,
        List.getElem?_eq_getElem procIn⟩
  have procAt :
      (parent.record rank).codimensionMapping[
        (parent.record rank).currentThisImage - 1]? = some parent.procs[rank] := by
    rw [parent.mapping rank rankLt, parent.thisImage rank rankLt]
    exact List.getElem?_eq_getElem procIn
  rw [← parent.mapping rank rankLt] at first second
  obtain ⟨after, ran, mappingEq, countEq, idEq, siblingEq, thisEq⟩ :=
    placeCodimensionMapping_ok first second procAt
      (fun member memberOf => parent.onNode member (mapped member memberOf))
  obtain ⟨low, high, cell⟩ := findThisImage_spec own
  have afterCount : after.currentNumImages = placed.codimensionMapping.length := by
    rw [countEq, represents.count, mappingIs.length]
  refine ⟨after, ran, ⟨?_, ?_, ?_, ?_⟩, ?_, ?_, ?_⟩
  · rw [idEq, represents.teamId]
  · rw [countEq, represents.count]
  · rw [mappingEq, represents.own]
  · rw [siblingEq]
    exact represents.sibling
  · rw [thisEq]
    exact low
  · rw [thisEq, afterCount]
    exact high
  · rw [mappingEq, thisEq, cell, List.getElem?_eq_getElem procIn]

/-- Where no image raises an Error, the passes of all images represent one
mapping per team id. -/
theorem passes_of_noError {totalNumSupernodes numImages : Nat} {record : Nat → Team}
    (length : procs.length = numImages) (nodup : procs.Nodup) (nonneg : ∀ proc ∈ procs, 0 ≤ proc)
    (mapping : ∀ rank < numImages, (record rank).codimensionMapping = procs)
    (exchanged : infoList.length = numImages)
    (noError : ∀ rank < numImages, ∀ text,
      placeCodimensionMapping nodeId totalNumSupernodes (record rank) infoList
        (setupSubteams infoList (myTeamId infoList rank)) ≠ .error (.error text)) :
    ∃ maps : Int → List Int,
      (∀ teamId, IsTeamMapping infoList procs teamId (maps teamId)) ∧
      ∀ myTeamId, 0 < teamCount infoList myTeamId →
        ∃ asserted placed,
          (infoList.zip procs).foldlM placeAsserted
            (setupSubteams infoList myTeamId) = .ok asserted ∧
          (infoList.zip procs).foldlM placeUnasserted asserted = .ok placed ∧
          Represents infoList myTeamId placed maps := by
  have real : ∀ proc ∈ procs, proc ≠ -1 := by
    intro proc memberOf equal
    have := nonneg proc memberOf
    omega
  refine placePasses_agree (exchanged.trans length.symm) nodup real ?_
  intro teamId positive text failed
  obtain ⟨info, infoMem, same⟩ := List.countP_pos_iff.mp positive
  obtain ⟨rank, rankIn, infoAt⟩ := List.mem_iff_getElem.mp infoMem
  have rankLt : rank < numImages := exchanged ▸ rankIn
  apply noError rank rankLt text
  have myTeam : myTeamId infoList rank = teamId := by
    rw [myTeamId, List.getD_eq_getElem _ _ rankIn, infoAt]
    simpa using same
  rw [placeCodimensionMapping, placeAndFind, placePasses, mapping rank rankLt, myTeam, failed]
  rfl

/-- Four images on two nodes, as an initial team numbers them. -/
def fourImages : ParentTeam (fun proc => proc.toNat / 2) 2 where
  numImages := 4
  procs := [0, 1, 2, 3]
  record rank :=
    { codimensionMapping := [0, 1, 2, 3], currentThisImage := rank + 1 }
  length := rfl
  nodup := by decide
  nonneg := by decide
  onNode := by decide
  mapping _ _ := rfl
  thisImage _ _ := rfl

/-- Two teams of two images; the second image asks for position 2. -/
def twoTeams : List TeamInfo :=
  [⟨7, 0⟩, ⟨9, 2⟩, ⟨7, 0⟩, ⟨9, 0⟩]

end OpenUH.Libcaf.TeamFormation
