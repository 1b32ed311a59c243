import OpenUH.Libcaf.RemoteAtomics

/-!
# Sequential orders of remote atomics

Each request takes effect in one step of the system: the builtin of the caller, or
the builtin of the handler.  In the order of these steps the requests, done one
after the other, leave the same value and return the same values.
-/

namespace OpenUH.Libcaf.RemoteAtomics

open Foundation.Transition

variable {width : Width}

/-! ## Payloads -/

/-- The low bytes of a payload are the operand. -/
theorem ofPayload_load (value : Operand width) (behind : BitVec 64) :
    Operand.ofPayload (Operand.load value behind) = value := by
  have narrow := width.bits_le
  unfold Operand.ofPayload Operand.load
  ext bit inside
  simp [inside]
  omega

/-- A sign extension keeps the low bytes. -/
theorem ofPayload_toPayload (value : Operand width) :
    Operand.ofPayload (Operand.toPayload value) = value := by
  have narrow := width.bits_le
  unfold Operand.ofPayload Operand.toPayload
  ext bit inside
  simp [inside, BitVec.getLsbD_signExtend]
  omega

/-! ## Both ways of a request -/

theorem Operation.directly_eq (operation : Operation width) (target : Operand width) :
    operation.directly target = operation.atomically target := by
  cases operation <;> rfl

/-- The common bits and the bits of either add up to the sum. -/
theorem and_add_or (first second : Nat) :
    (first &&& second) + (first ||| second) = first + second := by
  induction first using Nat.strong_induction_on generalizing second with
  | _ first ih =>
      by_cases zero : first = 0
      · simp [zero]
      · have halves := ih (first / 2) (by omega) (second / 2)
        rw [← Nat.and_div_two, ← Nat.or_div_two] at halves
        have both := @Nat.and_mod_two_eq_one first second
        have either := @Nat.or_mod_two_eq_one first second
        omega

/-- A sum has only the common bits where there are no others. -/
theorem add_eq_and_iff {target value : BitVec 16} :
    target + value = target &&& value ↔ target = 0 ∧ value = 0 := by
  constructor
  · intro same
    have numbers := congrArg BitVec.toNat same
    rw [BitVec.toNat_add, BitVec.toNat_and] at numbers
    have total := and_add_or target.toNat value.toNat
    have orLess := @Nat.or_lt_two_pow target.toNat value.toNat 16 target.isLt value.isLt
    have none : target.toNat ||| value.toNat = 0 := by omega
    have zero := Nat.or_eq_zero_iff.1 none
    exact ⟨BitVec.eq_of_toNat_eq zero.1, BitVec.eq_of_toNat_eq zero.2⟩
  · rintro ⟨rfl, rfl⟩
    rfl

/-- No sum of two bytes is taken for their common bits. -/
def Operation.Harmless (operation : Operation width) (target : Operand width) : Prop :=
  width = .int2 → ∀ value, operation = .commAndRequest value → target = 0 ∧ value = 0

/-- The handlers do what one atomic step does, apart from the sum. -/
theorem Operation.handler_eq_iff
    (operation : Operation width) (behind : BitVec 64) (target : Operand width) :
    operation.handler (operation.payload behind) target =
        ((operation.atomically target).1, (operation.atomically target).2.map Operand.toPayload) ↔
      operation.Harmless target := by
  cases operation with
  | commAndRequest value =>
      cases width with
      | int2 =>
          show (_ + Operand.ofPayload (Operand.load value behind), none) =
            (target &&& value, none) ↔ _
          rw [ofPayload_load, Prod.mk.injEq, and_iff_left rfl]
          refine add_eq_and_iff.trans ⟨?_, fun harmless => harmless rfl value rfl⟩
          intro zero _ other same
          cases same
          exact zero
      | int1 | int4 | int8 =>
          refine ⟨fun _ narrow => (nomatch narrow), fun _ => ?_⟩
          show (target &&& Operand.ofPayload (Operand.load value behind), none) = _
          rw [ofPayload_load]
          rfl
  | commCswapRequest cond value =>
      refine ⟨fun _ _ _ other => (nomatch other), fun _ => ?_⟩
      simp [handler, payload, handlerCswapRequest, syncCswap, atomically, ofPayload_load]
  | _ =>
      refine ⟨fun _ _ _ other => (nomatch other), fun _ => ?_⟩
      simp [handler, payload, handlerSwapRequest, handlerAtomicStoreRequest,
        handlerFaddRequest, handlerAddRequest, handlerFandRequest,
        handlerForRequest, handlerOrRequest, handlerFxorRequest, handlerXorRequest,
        fetchHandler, updateHandler, syncSwap, syncFetchAndAdd, syncFetchAndAnd,
        syncFetchAndOr, syncFetchAndXor, atomically, ofPayload_load]

/-! ## Steps -/

variable {requests : Nat → Request width} {start : Operand width}
  {state : State width}

theorem State.advance_self (state : State width) (target : Operand width) (request : Nat)
    (progress : Progress width) :
    (state.advance target request progress).progress request = progress :=
  Function.update_self _ _ _

theorem State.advance_of_ne {request other : Nat} (differs : other ≠ request)
    (state : State width) (target : Operand width) (progress : Progress width) :
    (state.advance target request progress).progress other = state.progress other :=
  Function.update_of_ne differs _ _

variable {progress : Progress width}

theorem Progress.Returns.performed {result : Option (Operand width)}
    (returns : progress.Returns result) :
    progress.Performed := by
  rcases returns with rfl | ⟨value, rfl, -⟩
  · exact ⟨nofun, nofun⟩
  · exact ⟨nofun, nofun⟩

/-- Nothing has happened yet. -/
theorem Sequential.initial (isInitial : Initial start state) : Sequential requests start state := by
  refine ⟨[], List.nodup_nil, fun request => ?_, isInitial.1, ?_⟩
  · rw [isInitial.2 request]
    exact ⟨nofun, fun performed => absurd rfl performed.1⟩
  · intro before request after split
    cases before <;> cases split

/-- A step that takes effect comes last in the order. -/
theorem Sequential.perform {request : Nat}
    (sequential : Sequential requests start state) (pending : ¬ (state.progress request).Performed)
    (returns : progress.Returns ((requests request).operation.atomically state.target).2) :
    Sequential requests start
      (state.advance ((requests request).operation.atomically state.target).1
        request progress) := by
  obtain ⟨order, distinct, performed, value, results⟩ := sequential
  have fresh : request ∉ order := fun member => pending ((performed request).1 member)
  refine ⟨order ++ [request], ?_, fun other => ?_, ?_, ?_⟩
  · exact List.nodup_append.2 ⟨distinct, List.nodup_singleton request, by
      intro first member second single
      rw [List.mem_singleton.1 single]
      exact fun same => fresh (same ▸ member)⟩
  · rw [List.mem_append, List.mem_singleton]
    by_cases same : other = request
    · rw [same, State.advance_self]
      exact ⟨fun _ => returns.performed, fun _ => Or.inr rfl⟩
    · rw [State.advance_of_ne same, ← performed other]
      exact ⟨fun member => member.resolve_right same, Or.inl⟩
  · show ((requests request).operation.atomically state.target).1 = _
    rw [value, valueAfter, valueAfter, List.foldl_append]
    rfl
  · intro before other after split
    rcases List.append_eq_append_iff.1 split with
      ⟨middle, beforeIs, lastIs⟩ | ⟨middle, orderIs, lastIs⟩
    · obtain ⟨middleIs, rest⟩ : middle = [] ∧ request = other := by
        cases middle with
        | nil => exact ⟨rfl, (List.cons.inj lastIs).1⟩
        | cons head tail => cases tail <;> cases lastIs
      rw [middleIs, List.append_nil] at beforeIs
      rw [beforeIs, ← rest, State.advance_self, ← value]
      exact returns
    · cases middle with
      | nil =>
          rw [List.append_nil] at orderIs
          rw [(List.cons.inj lastIs).1, State.advance_self, ← orderIs, ← value]
          exact returns
      | cons head tail =>
          obtain ⟨headIs, -⟩ := List.cons.inj lastIs
          rw [← headIs] at orderIs
          have member : other ∈ order := by
            rw [orderIs]
            simp
          have differs : other ≠ request := fun same => fresh (same ▸ member)
          rw [State.advance_of_ne differs]
          exact results before other tail orderIs

/-- A step that takes no effect leaves the order as it is. -/
theorem Sequential.keep {request : Nat} (sequential : Sequential requests start state)
    (performed : progress.Performed ↔ (state.progress request).Performed)
    (returns : ∀ result, (state.progress request).Returns result → progress.Returns result) :
    Sequential requests start (state.advance state.target request progress) := by
  obtain ⟨order, distinct, same, value, results⟩ := sequential
  refine ⟨order, distinct, fun other => ?_, value, ?_⟩
  · by_cases here : other = request
    · rw [here, State.advance_self, performed, same]
    · rw [State.advance_of_ne here, same]
  · intro before other after split
    have result := results before other after split
    by_cases here : other = request
    · rw [here] at result ⊢
      rw [State.advance_self]
      exact returns _ result
    · rw [State.advance_of_ne here]
      exact result

/-! ## Runs -/

/-- A step in which only harmless requests are handled. -/
def HarmlessStep (requests : Nat → Request width) (before after : State width) : Prop :=
  Step requests before after ∧
    ∀ request payload, before.progress request = .sent payload →
      (after.progress request).Performed → (requests request).operation.Harmless before.target

/-- The payloads on the way are those of their requests. -/
structure Invariant (requests : Nat → Request width) (start : Operand width)
    (state : State width) : Prop where
  sequential : Sequential requests start state
  payloads : ∀ request payload, state.progress request = .sent payload →
    payload = (requests request).operation.payload (requests request).behind

theorem Invariant.initial (isInitial : Initial start state) :
    Invariant requests start state where
  sequential := .initial isInitial
  payloads request payload sent := by
    rw [isInitial.2 request] at sent
    cases sent

/-- Only the request of a step may have a new payload. -/
theorem Invariant.advance {request : Nat} {target : Operand width}
    (invariant : Invariant requests start state)
    (sequential : Sequential requests start (state.advance target request progress))
    (payload : ∀ payload, progress = .sent payload →
      payload = (requests request).operation.payload (requests request).behind) :
    Invariant requests start (state.advance target request progress) where
  sequential := sequential
  payloads other value sent := by
    by_cases here : other = request
    · rw [here, State.advance_self] at sent
      rw [here]
      exact payload value sent
    · rw [State.advance_of_ne here] at sent
      exact invariant.payloads other value sent

/-- What a handler did, where its request is harmless. -/
theorem Invariant.handled {request : Nat} {payload : Payload} {target : Operand width}
    {value : Option (BitVec 64)} (invariant : Invariant requests start state)
    (sent : state.progress request = .sent payload)
    (harmless : (requests request).operation.Harmless state.target)
    (handled : (requests request).operation.handler payload state.target = (target, value)) :
    target = ((requests request).operation.atomically state.target).1 ∧
      value = ((requests request).operation.atomically state.target).2.map
        Operand.toPayload := by
  have atomic := (Operation.handler_eq_iff _ (requests request).behind _).2 harmless
  rw [← invariant.payloads request payload sent, handled] at atomic
  exact Prod.mk.inj atomic

theorem Progress.not_performed_waiting : ¬ (Progress.waiting : Progress width).Performed :=
  fun performed => performed.1 rfl

theorem Progress.not_performed_sent (payload : Payload) :
    ¬ (Progress.sent payload : Progress width).Performed :=
  fun performed => performed.2 payload rfl

theorem Invariant.step {after : State width} (invariant : Invariant requests start state)
    (stepped : HarmlessStep requests state after) :
    Invariant requests start after := by
  obtain ⟨step, harmless⟩ := stepped
  cases step with
  | @direct request waits near =>
      apply invariant.advance
      · rw [Operation.directly_eq]
        apply invariant.sequential.perform _ (Or.inl rfl)
        rw [waits]
        exact Progress.not_performed_waiting
      · intro payload same
        cases same
  | @send request waits far =>
      apply invariant.advance (invariant.sequential.keep ?_ ?_)
      · intro payload same
        exact (Progress.sent.inj same).symm
      · rw [waits]
        exact iff_of_false (Progress.not_performed_sent _) Progress.not_performed_waiting
      · intro result returns
        rw [waits] at returns
        exact absurd returns.performed Progress.not_performed_waiting
  | @reply request payload target value sent handled =>
      have safe := harmless request payload sent (by
        rw [State.advance_self]
        exact ⟨nofun, nofun⟩)
      obtain ⟨targetIs, valueIs⟩ := invariant.handled sent safe handled
      apply invariant.advance
      · rw [targetIs]
        apply invariant.sequential.perform
        · rw [sent]
          exact Progress.not_performed_sent payload
        · obtain ⟨old, result, valueIs⟩ := Option.map_eq_some_iff.1 valueIs.symm
          refine Or.inr ⟨value, rfl, ?_⟩
          rw [result, ← valueIs, ofPayload_toPayload]
      · intro payload same
        cases same
  | @handle request payload target sent handled =>
      have safe := harmless request payload sent (by
        rw [State.advance_self]
        exact ⟨nofun, nofun⟩)
      obtain ⟨targetIs, valueIs⟩ := invariant.handled sent safe handled
      apply invariant.advance
      · rw [targetIs]
        apply invariant.sequential.perform
        · rw [sent]
          exact Progress.not_performed_sent payload
        · rw [Option.map_eq_none_iff.1 valueIs.symm]
          exact Or.inl rfl
      · intro payload same
        cases same
  | @deliver request value replied =>
      apply invariant.advance (invariant.sequential.keep ?_ ?_)
      · intro payload same
        cases same
      · rw [replied]
        exact iff_of_true ⟨nofun, nofun⟩ ⟨nofun, nofun⟩
      · intro result returns
        rw [replied] at returns
        rcases returns with finished | ⟨other, same, resultIs⟩
        · cases finished
        · cases same
          rw [resultIs]
          exact Or.inl rfl

/--
A request on each of its ways is one atomic step, exactly where its handler does
not add for the common bits of two bytes; and where all the requests that are
handled in a run are of that kind, the run has a sequential order.
-/
theorem remoteAtomics_sequential (requests : Nat → Request width) (start : Operand width)
    {state : State width} (reached : Reachable (Initial start) (HarmlessStep requests) state) :
    (∀ (operation : Operation width) behind target,
      (operation.directly target = operation.atomically target ∧
        operation.handler (operation.payload behind) target =
          ((operation.atomically target).1,
            (operation.atomically target).2.map Operand.toPayload)) ↔
      operation.Harmless target) ∧
    Sequential requests start state := by
  constructor
  · intro operation behind target
    rw [and_iff_right (operation.directly_eq target), Operation.handler_eq_iff]
  · have invariant : Invariant requests start state :=
      reached.invariant (fun _ isInitial => Invariant.initial isInitial)
        fun _ _ kept stepped => Invariant.step kept stepped
    exact invariant.sequential

/-- An addition on the image itself. -/
def oneAddition : Nat → Request .int4 := fun _ =>
    { operation := .commFaddRequest 5, path := .own, behind := 0 }

/-- The variable, before and after the first of the additions. -/
def beforeAddition : State .int4 where
  target := 37
  progress _ := .waiting

theorem remoteAtomics_sequential_oneAddition :
    Sequential oneAddition 37
      (beforeAddition.advance 42 0 (.done (some 37))) := by
  have step : Step oneAddition beforeAddition
      (beforeAddition.advance 42 0 (.done (some 37))) :=
    @Step.direct _ oneAddition beforeAddition 0 rfl nofun
  exact (remoteAtomics_sequential oneAddition 37
    ((Reachable.start ⟨rfl, fun _ => rfl⟩).tail ⟨step, nofun⟩)).2

/-! ## The sum of two bytes -/

/-- The common bits of two bytes, asked for by a message. -/
def commonBits : Nat → Request .int2 := fun _ =>
    { operation := .commAndRequest 1, path := .message, behind := 0 }

/-- The variable, before the first of the requests. -/
def beforeCommonBits : State .int2 where
  target := 1
  progress _ := .waiting

/-- The first of the requests, on its way and handled. -/
def commonBitsSent : State .int2 :=
  beforeCommonBits.advance 1 0
    (.sent ((commonBits 0).operation.payload (commonBits 0).behind))

def commonBitsHandled : State .int2 :=
  commonBitsSent.advance 2 0 (.done none)

/-- The common bits of one and one are two. -/
theorem commonBits_not_sequential :
    Reachable (Initial 1) (Step commonBits) commonBitsHandled ∧
      ¬ Sequential commonBits 1 commonBitsHandled := by
  constructor
  · have sent : Step commonBits beforeCommonBits commonBitsSent :=
      .send rfl rfl
    have handled : Step commonBits commonBitsSent commonBitsHandled :=
      .handle (State.advance_self _ _ _ _) (by decide)
    exact ((Reachable.start ⟨rfl, fun _ => rfl⟩).tail sent).tail handled
  · rintro ⟨order, -, -, value, -⟩
    have one : ∀ order : List Nat, valueAfter commonBits 1 order = 1 := by
      intro order
      induction order with
      | nil => rfl
      | cons request order ih => exact ih
    rw [one] at value
    exact absurd value (by decide)

/-! ## Tickets -/

section Tickets

variable (adds : ∀ request, (requests request).operation = .commFaddRequest 1)

include adds

theorem valueAfter_adds (order : List Nat) :
    valueAfter requests start order = start + BitVec.ofNat width.bits order.length := by
  induction order generalizing start with
  | nil => simp [valueAfter]
  | cons request order ih =>
      have rest : valueAfter requests start (request :: order) =
          valueAfter requests (start + 1) order := by
        simp [valueAfter, adds request, Operation.atomically]
      rw [rest, ih, List.length_cons, Nat.add_comm, BitVec.ofNat_add, ← BitVec.add_assoc]
      rfl

/-- A request returns how many requests came before it. -/
theorem Sequential.ticket_eq (sequential : Sequential requests start state) :
    ∃ order : List Nat, order.Nodup ∧
      (∀ request ∈ order, (state.progress request).Performed) ∧
      ∀ request ticket, state.progress request = .done (some ticket) →
        request ∈ order ∧ ticket = start + BitVec.ofNat width.bits (order.idxOf request) := by
  obtain ⟨order, distinct, performed, -, results⟩ := sequential
  refine ⟨order, distinct, fun request => (performed request).1, fun request ticket done => ?_⟩
  have member : request ∈ order := (performed request).2 (done ▸ ⟨nofun, nofun⟩)
  refine ⟨member, ?_⟩
  obtain ⟨before, after, split⟩ := List.append_of_mem member
  have returns := results before request after split
  rw [done, adds request, valueAfter_adds adds] at returns
  rcases returns with same | ⟨value, replied, -⟩
  · rw [split, List.nodup_append] at distinct
    have absent : request ∉ before := fun earlier =>
      distinct.2.2 _ earlier _ List.mem_cons_self rfl
    rw [split, List.idxOf_append_of_notMem absent, List.idxOf_cons_self, Nat.add_zero]
    simpa [Operation.atomically] using same
  · cases replied

/-- Requests that add one to a variable return different numbers, up to its range. -/
theorem tickets_distinct (reached : Reachable (Initial start) (Step requests) state)
    {asked : Finset Nat} (within : ∀ request, (state.progress request).Performed → request ∈ asked)
    (few : asked.card ≤ 2 ^ width.bits) {first second : Nat} (apart : first ≠ second)
    {ticket other : Operand width} (firstDone : state.progress first = .done (some ticket))
    (secondDone : state.progress second = .done (some other)) : ticket ≠ other := by
  have invariant : Invariant requests start state :=
    reached.invariant (fun _ isInitial => Invariant.initial isInitial)
      fun _ _ kept step => kept.step ⟨step, fun request _ _ _ _ value isAnd => by
        rw [adds request] at isAnd
        cases isAnd⟩
  obtain ⟨order, distinct, performed, tickets⟩ := invariant.sequential.ticket_eq adds
  obtain ⟨firstIn, rfl⟩ := tickets first ticket firstDone
  obtain ⟨secondIn, rfl⟩ := tickets second other secondDone
  have short : order.length ≤ asked.card :=
    (List.toFinset_card_of_nodup distinct).ge.trans (Finset.card_le_card fun request member =>
      within request (performed request (List.mem_toFinset.1 member)))
  intro same
  have numbers := congrArg BitVec.toNat ((BitVec.add_right_inj _).1 same)
  have firstLess := List.idxOf_lt_length_iff.2 firstIn
  have secondLess := List.idxOf_lt_length_iff.2 secondIn
  rw [BitVec.toNat_ofNat, BitVec.toNat_ofNat, Nat.mod_eq_of_lt (by omega),
    Nat.mod_eq_of_lt (by omega)] at numbers
  exact apart ((List.idxOf_inj firstIn).1 numbers)

end Tickets

/-- Images that each draw a ticket. -/
def drawing : Nat → Request .int1 := fun _ =>
    { operation := .commFaddRequest 1, path := .sameNode, behind := 0 }

/-- The first two images have drawn. -/
def drawn : State .int1 :=
  (State.advance ⟨255, fun _ => .waiting⟩ 0 3 (.done (some 255))).advance 1 8 (.done (some 0))

theorem tickets_distinct_drawn : drawn.progress 3 = .done (some 255) ∧
    drawn.progress 8 = .done (some 0) ∧ (255 : Operand .int1) ≠ 0 := by
  have start : Reachable (Initial 255) (Step drawing) ⟨255, fun _ => .waiting⟩ :=
    .start ⟨rfl, fun _ => rfl⟩
  have reached : Reachable (Initial 255) (Step drawing) drawn :=
    (start.tail (@Step.direct _ drawing _ 3 rfl nofun)).tail (@Step.direct _ drawing _ 8 rfl nofun)
  have within : ∀ request, (drawn.progress request).Performed → request ∈ ({3, 8} : Finset Nat) := by
    intro request performed
    by_contra neither
    simp only [Finset.mem_insert, Finset.mem_singleton, not_or] at neither
    rw [drawn, State.advance_of_ne neither.2, State.advance_of_ne neither.1] at performed
    exact performed.1 rfl
  exact ⟨rfl, rfl, tickets_distinct (fun _ => rfl) reached within (by decide)
    (by decide : 3 ≠ 8) rfl rfl⟩

end OpenUH.Libcaf.RemoteAtomics
