import OpenUH.Libcaf.GetCacheCalls

/-!
# Coherence of the get cache

Writes and synchronisation keep the invariant as well, so every run whose
calls meet the condition reads what was written, and stays inside the line.
-/

namespace OpenUH.Libcaf.GetCache

open Foundation
open Foundation.Fallible

variable {job : Job} {dirty : List Nat} {limbo : Nat} {state : State}

/-! ## Writes -/

/-- What a write does before it updates the line. -/
def Sent (job : Job) (state : State) (write : Write) : State :=
  (putWrite job
    ((awaitPuts job state write.address write.shape.putSize).progresses
      write.waiting) write).progresses write.sending

theorem sent_spec (invariant : Invariant job [] 0 state) {write : Write} (proper : write.Proper)
    (clear : ClearAfter job state write.address write.shape.putSize
      (write.shape.addresses write.address))
    (unwanted : ∀ byte ∈ state.getting, byte.content = none →
      byte.address ∉ write.shape.addresses write.address) :
    Invariant job (write.shape.addresses write.address) 0
        (Sent job state write) ∧
      Written write state (Sent job state write) := by
  obtain ⟨waited, first, gone⟩ := awaitPuts_spec invariant clear
  obtain ⟨kept, second⟩ := waited.progresses write.waiting
  have evolves := first.trans second
  have ready : Ready write
      ((awaitPuts job state write.address write.shape.putSize).progresses write.waiting) :=
    ⟨fun byte member => gone byte (second.flying member),
      fun byte member isUnknown =>
        unwanted byte (evolves.getting byte member isUnknown) isUnknown⟩
  obtain ⟨put, written⟩ := putWrite_spec kept proper ready
  obtain ⟨last, third⟩ := put.progresses write.sending
  refine ⟨last, ?_, fun byte member => ?_⟩
  · exact third.remoteAddress.trans (written.remoteAddress.trans evolves.remoteAddress)
  · unfold Sent
    rw [third.written]
    exact written.written byte member

theorem commWrite_spec (invariant : Invariant job [] 0 state) {write : Write}
    (proper : write.Proper) (meets : WriteMeets job state write) :
    ∃ after, commWrite job state write = .ok after ∧ Invariant job [] 0 after := by
  obtain ⟨clear, unwanted, updates⟩ := meets
  obtain ⟨sent, written⟩ := sent_spec invariant proper clear unwanted
  have address := written.remoteAddress
  unfold commWrite
  dsimp only
  split
  · rename_i enabled
    have condition := updates enabled
    unfold UpdateMeets at condition
    rw [← address] at condition
    split
    · rename_i nbytes contiguous
      rw [contiguous] at condition
      refine updateCache_spec sent proper contiguous written.written
        condition.1 fun isReleased => ?_
      obtain ⟨fromLcb, settled⟩ := (Bool.and_eq_true _ _).mp isReleased
      exact condition.2 fromLcb settled
    · rename_i blkSize levels strided
      rw [strided] at condition
      dsimp only at condition
      rw [← strided] at condition
      change ∃ after, updateCacheStrided job (Sent job state write)
        write.address write.shape write.values
          (write.fromLcb && write.settled job) = .ok after ∧ Invariant _ _ _ _
      refine updateCacheStrided_spec sent proper written.written (fun copies => ?_) fun leaves => ?_
      · rw [copies] at condition
        refine ⟨condition.1, fun isReleased => ?_⟩
        obtain ⟨fromLcb, settled⟩ := (Bool.and_eq_true _ _).mp isReleased
        exact condition.2 fromLcb settled
      · rw [leaves] at condition
        exact condition
  · rename_i isDisabled
    obtain ⟨uncached, empty⟩ := sent.disabled (Bool.eq_false_iff.mpr isDisabled)
    refine ⟨Sent job state write, rfl, { sent with
      fills := fun byte member => ?_
      line := fun cached => absurd uncached cached }⟩
    rw [empty] at member
    cases member

/-! ## Synchronisation -/

theorem Invariant.clearCache (invariant : Invariant job [] limbo state) :
    Invariant job [] limbo (clearCache state) := by
  obtain ⟨kept, empty⟩ := invariant.waitLine
  have nothing : ∀ byte, byte ∉ state.waitLine.filling := by
    simp [empty]
  unfold GetCache.clearCache
  split
  · exact { kept with
      placed := fun byte member => absurd member (nothing byte)
      fills := fun byte member => absurd member (nothing byte)
      line := fun cached => absurd rfl cached
      disabled := fun _ => ⟨rfl, empty⟩ }
  · exact invariant

theorem Invariant.refetchCache (invariant : Invariant job [] limbo state)
    (meets : 0 < state.remoteAddress → state.filling = [] ∧
      ∀ byte ∈ state.flying, byte.address ∉ lineAddresses job state.remoteAddress) :
    Invariant job [] limbo (refetchCache job state) := by
  unfold GetCache.refetchCache
  split
  · rename_i cached
    obtain ⟨empty, clear⟩ := meets (Nat.pos_of_ne_zero cached)
    have fresh : ∀ byte ∈ state.filling ++ (List.range job.getcacheBlockSize).map (fun place =>
          ({ handle := state.issued + 1
             address := state.remoteAddress + place
             place, content := none } : FillByte)),
        ∃ place < job.getcacheBlockSize, byte =
          { handle := state.issued + 1
            address := state.remoteAddress + place
            place := place, content := none } := by
      intro byte member
      rw [empty, List.nil_append] at member
      obtain ⟨place, within, rfl⟩ := List.mem_map.mp member
      exact ⟨place, List.mem_range.mp within, rfl⟩
    refine { invariant with
      current := fun byte member => ?_
      placed := fun byte member => ?_
      fills := fun byte member _ => ?_
      line := fun _ offset within _ free => ?_
      disabled := fun isDisabled => ?_ }
    · obtain ⟨place, -, rfl⟩ := fresh byte member
      exact ⟨rfl, Nat.succ_ne_zero _⟩
    · obtain ⟨place, -, rfl⟩ := fresh byte member
      rfl
    · obtain ⟨place, within, rfl⟩ := fresh byte member
      refine ⟨fun _ isValue => absurd isValue.symm (Option.some_ne_none _),
        fun _ flies => ?_⟩
      obtain ⟨other, inside, same⟩ := List.mem_map.mp flies
      exact clear other inside (same ▸ List.mem_map.mpr ⟨place, List.mem_range.mpr within, rfl⟩)
    · refine absurd rfl (free { handle := state.issued + 1
                                address := state.remoteAddress + offset
                                place := offset, content := none } ?_)
      exact List.mem_append_right _ (List.mem_map.mpr ⟨offset, List.mem_range.mpr within, rfl⟩)
    · exact absurd (invariant.disabled isDisabled).1 cached
  · exact invariant

/-- After a wait on everything no put is in flight. -/
theorem synchronised (invariant : Invariant job dirty 0 state) :
    Invariant job dirty 0 (waitOnAllPendingAccesses state) ∧
      Evolves state (waitOnAllPendingAccesses state) ∧
      ∀ byte, byte ∉ (waitOnAllPendingAccesses state).flying := by
  obtain ⟨kept, evolves, alone⟩ := waitOnAllPendingAccesses_spec invariant
  exact ⟨kept, evolves, fun byte member =>
    kept.numbered byte member (alone byte member)⟩

theorem commNewExecSegment_spec (invariant : Invariant job [] limbo state)
    (meets : job.enableGetCache = true → job.getCacheSyncRefetch = true →
      0 < state.remoteAddress → state.filling = [] ∧
        ∀ byte ∈ state.flying, byte.address ∉ lineAddresses job state.remoteAddress) :
    Invariant job [] limbo (commNewExecSegment job state) := by
  unfold commNewExecSegment
  split
  · rename_i enabled
    split
    · rename_i refetches
      exact invariant.refetchCache (meets enabled refetches)
    · exact invariant.clearCache
  · exact invariant

theorem commSync_spec (invariant : Invariant job dirty 0 state)
    (handle : Nat) : Invariant job dirty 0 (commSync state handle) := by
  have kept := (invariant.waitPut handle).waitGet handle
  have waited := kept.relist state.handles state.minNbAddress
    state.maxNbAddress (state.gets.erase handle) kept.listed
  unfold commSync
  dsimp only
  split
  · rename_i node found
    have isNode : node.handle = handle := by
      simpa using List.find?_some found
    refine (deleteNode_spec waited node fun byte member => ?_).1
    rw [isNode]
    exact waitPut_landed member
  · exact waited

theorem commSyncImages_spec (invariant : Invariant job [] 0 state)
    {among : Bool} (meets : Meets job state (.syncImages among)) :
    Invariant job [] 0 (commSyncImages job state among) := by
  obtain ⟨kept, evolves, landed⟩ := synchronised invariant
  have address := evolves.remoteAddress
  have quiet : ∀ byte ∈ (waitOnAllPendingAccesses state).flying,
      byte.address ∉ lineAddresses job (waitOnAllPendingAccesses state).remoteAddress :=
    fun byte member => absurd member (landed byte)
  have free : RefetchMeets job state true →
      0 < (waitOnAllPendingAccesses state).remoteAddress →
      (waitOnAllPendingAccesses state).filling = [] := by
    intro refetch cached
    rw [address] at cached
    exact evolves.filling (refetch cached).1
  unfold commSyncImages
  dsimp only
  split
  · rename_i both
    obtain ⟨isAmong, enabled⟩ := both
    obtain ⟨refetch, uncached⟩ := meets enabled
    have once := kept.refetchCache fun cached =>
      ⟨free (refetch (.inl isAmong)) cached, quiet⟩
    refine commNewExecSegment_spec once fun _ refetches => ?_
    have noLine : (waitOnAllPendingAccesses state).remoteAddress = 0 :=
      address.trans (uncached isAmong refetches)
    have same : refetchCache job (waitOnAllPendingAccesses state) =
        waitOnAllPendingAccesses state := if_neg (not_not.mpr noLine)
    rw [same, noLine]
    exact fun cached => absurd cached (Nat.lt_irrefl 0)
  · refine commNewExecSegment_spec kept fun enabled refetches cached => ?_
    exact ⟨free ((meets enabled).1 (.inr refetches)) cached, quiet⟩

/-! ## Runs -/

/-- What a call comes to that keeps the invariant. -/
theorem run_spec (invariant : Invariant job [] 0 state) {move : Move}
    (enabled : Enabled move) (meets : Meets job state move) :
    ∃ after, run job state move = .ok after ∧ Invariant job [] 0 after := by
  cases move with
  | read read => exact commRead_spec invariant enabled meets
  | nbread read makesRoom =>
      exact commNbread_spec invariant makesRoom enabled meets
  | write write => exact commWrite_spec invariant enabled meets
  | sync handle => exact ⟨_, rfl, commSync_spec invariant handle⟩
  | fence => exact ⟨_, rfl, (synchronised invariant).1⟩
  | syncAll =>
      obtain ⟨kept, evolves, landed⟩ := synchronised invariant
      refine ⟨_, rfl, commNewExecSegment_spec kept
        fun enabled refetches cached => ?_⟩
      rw [evolves.remoteAddress] at cached
      exact ⟨evolves.filling (meets enabled refetches cached).1,
        fun byte member => absurd member (landed byte)⟩
  | syncImages among => exact ⟨_, rfl, commSyncImages_spec invariant meets⟩
  | newExecSegment =>
      refine ⟨_, rfl, commNewExecSegment_spec invariant
        fun enabled refetches cached => ?_⟩
      obtain ⟨empty, clear⟩ := meets enabled refetches cached
      exact ⟨empty, clear rfl⟩
  | progress event => exact ⟨_, rfl, invariant.progress event⟩

theorem invariant_initial (job : Job) (memory : Nat → UInt8) :
    Invariant job [] 0 (initial memory) where
  nodup := List.nodup_nil
  flies := nofun
  settled := fun _ _ => rfl
  listed := nofun
  numbered := nofun
  current := nofun
  placed := nofun
  fills := nofun
  line := fun cached => absurd rfl cached
  gets := nofun
  answers := nofun
  disabled := fun _ => ⟨rfl, rfl⟩

/-- No call has failed, and the invariant holds. -/
def Sound (job : Job) (outcome : Except Fault State) : Prop :=
  ∃ state, outcome = .ok state ∧ Invariant job [] 0 state

theorem sound_reached {memory : Nat → UInt8} {outcome : Except Fault State}
    (reached : Reached job memory (Meets job) outcome) :
    Sound job outcome := by
  refine Transition.Reachable.invariant ?_ ?_ reached
  · rintro outcome rfl
    exact ⟨_, rfl, invariant_initial job memory⟩
  · rintro before after ⟨state, rfl, invariant⟩ ⟨called, move, same, enabled, meets, rfl⟩
    obtain rfl := Except.ok.inj same
    exact run_spec invariant enabled meets

/-- The default ordering, and a line of four bytes. -/
def smallLine : Job where
  rmaOrdering := .putAddressOrdered
  enableGetCache := true
  getcacheBlockSize := 4
  getCacheSyncRefetch := false
  localPackNoncontigPut := false

/-- A read of the four bytes at address 8. -/
def readLine : Read where
  address := 8
  shape := .contiguous 4
  progress := []

/-- An ordered write of some bytes that stays pending. -/
def pendingWrite (address : Nat) (values : List UInt8) : Write where
  address := address
  shape := .contiguous values.length
  values := values
  ordered := true
  fromLcb := false
  blocks := false
  completes := false
  makesRoom := false
  waiting := []
  sending := []

/-- The state after a call that is carried out. -/
def State.next (state : State) (move : Move) : State :=
  match run smallLine state move with
  | .ok after => after
  | .error _ => state

theorem reached_next {condition : State → Move → Prop} {memory : Nat → UInt8} {move : Move}
    (reached : Reached smallLine memory condition (.ok state))
    (enabled : Enabled move) (met : condition state move)
    (ran : (run smallLine state move).toBool = true) :
    Reached smallLine memory condition (.ok (state.next move)) := by
  refine reached.tail ⟨state, move, rfl, enabled, met, ?_⟩
  unfold State.next
  cases outcome : run smallLine state move with
  | ok after => rfl
  | error fault =>
      rw [outcome] at ran
      cases ran

theorem proper_pendingWrite (address : Nat) (values : List UInt8)
    (positive : 0 < address) : (pendingWrite address values).Proper where
  address := positive
  nodup := List.nodup_range
  values := List.length_range.symm

end OpenUH.Libcaf.GetCache
