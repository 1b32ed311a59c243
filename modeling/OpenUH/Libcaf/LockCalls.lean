import OpenUH.Libcaf.LockView

/-!
# The invariant of locks, and lock calls

Every lock keeps the invariant of its queue over the steps of the calls on any
lock.  Where locks are released by compare-and-swap it also says that the queue
is served in the order of the swaps.
-/

namespace OpenUH.Libcaf.CoarrayLock

open Foundation
open Function (update_eq_self update_self)

variable {job : Job} {state after : State} {lock : Lock} {me req : Int}
  {main : List Int} {asides : List (List Int)} {call : Call}
  {request : LockRequest}

/-! ## The invariant -/

/-- The stages of a release by fetch-and-store alone. -/
def Stage.SwapOnly : Option Stage → Prop
  | some .resetting | some (.restoring _) | some (.awaitingDone (some _))
  | some (.awaitingImage (some _)) | some (.handing (some _)) => True
  | _ => False

/-- Those of the chain whose lock call has returned. -/
def View.inside (view : View) (main : List Int) : List Int :=
  main.head?.toList.filter fun head => view.stage head ≠ some .polling

/-- A lock that is released by compare-and-swap is served in order. -/
structure Orderly (state : State) (lock : Lock) (main : List Int)
    (asides : List (List Int)) : Prop where
  alone : asides = []
  plain : ∀ me, ¬Stage.SwapOnly (state.stageOn lock me)
  history : ∃ gone, state.swaps lock = gone ++ main ∧
    state.entries lock = gone ++ (state.view lock).inside main

/-- The invariant of one lock. -/
def Served (job : Job) (state : State) (lock : Lock) : Prop :=
  ∃ main asides, Queue (state.view lock) main asides ∧
    (job.release = .compareAndSwap → Orderly state lock main asides)

/-- The invariant of a state. -/
structure Safe (job : Job) (state : State) : Prop where
  sorted : Sorted state
  served : ∀ lock, Served job state lock

/-! ## What is the same for every step -/

/-- A lock that is seen as before is served as before. -/
theorem Served.congr (served : Served job state lock) (view : after.view lock = state.view lock)
    (swaps : after.swaps lock = state.swaps lock)
    (entries : after.entries lock = state.entries lock) :
    Served job after lock := by
  obtain ⟨main, asides, queue, orderly⟩ := served
  refine ⟨main, asides, view ▸ queue, fun compares => ?_⟩
  obtain ⟨alone, plain, gone, isSwaps, isEntries⟩ := orderly compares
  have stage : after.stageOn lock = state.stageOn lock := congrArg View.stage view
  refine ⟨alone, ?_, gone, swaps.trans isSwaps, ?_⟩
  · rw [stage]
    exact plain
  · rw [entries, view]
    exact isEntries

theorem Orderly.plain_after (orderly : Orderly state lock main asides)
    (others : ∀ other, other ≠ me → after.stageOn lock other = state.stageOn lock other)
    (plain : ¬Stage.SwapOnly (after.stageOn lock me)) (other : Int) :
    ¬Stage.SwapOnly (after.stageOn lock other) := by
  by_cases here : other = me
  · exact here ▸ plain
  · rw [others other here]
    exact orderly.plain other

/-- The history is kept where nobody gets or leaves the lock. -/
theorem Orderly.keep (orderly : Orderly state lock main asides)
    (others : ∀ other, other ≠ me → after.stageOn lock other = state.stageOn lock other)
    (swaps : after.swaps lock = state.swaps lock)
    (entries : after.entries lock = state.entries lock)
    (plain : ¬Stage.SwapOnly (after.stageOn lock me))
    (polls : main.head? = some me → (after.stageOn lock me = some .polling ↔
      state.stageOn lock me = some .polling)) :
    Orderly after lock main asides where
  alone := orderly.alone
  plain := orderly.plain_after others plain
  history := by
    obtain ⟨gone, isSwaps, isEntries⟩ := orderly.history
    refine ⟨gone, swaps.trans isSwaps, entries.trans ?_⟩
    rw [isEntries]
    congr 1
    unfold View.inside
    refine List.filter_congr fun head member => ?_
    have isHead : main.head? = some head := Option.mem_toList.mp member
    refine decide_eq_decide.mpr (not_congr ?_)
    by_cases here : head = me
    · subst here
      exact (polls isHead).symm
    · exact iff_of_eq (congrArg (· = some Stage.polling) (others head here).symm)

/-- The history where the owner leaves and the next, if any, waits for it. -/
theorem Orderly.leave {rest : List Int} (orderly : Orderly state lock (me :: rest) asides)
    (others : ∀ other, other ≠ me → after.stageOn lock other = state.stageOn lock other)
    (swaps : after.swaps lock = state.swaps lock)
    (entries : after.entries lock = state.entries lock)
    (entered : state.stageOn lock me ≠ some .polling)
    (plain : ¬Stage.SwapOnly (after.stageOn lock me))
    (polls : ∀ next ∈ rest.head?, after.stageOn lock next = some .polling) :
    Orderly after lock rest [] where
  alone := rfl
  plain := orderly.plain_after others plain
  history := by
    obtain ⟨gone, isSwaps, isEntries⟩ := orderly.history
    have before : (state.view lock).inside (me :: rest) = [me] := by
      exact List.filter_cons_of_pos (decide_eq_true entered)
    have behind : (after.view lock).inside rest = [] := by
      unfold View.inside
      refine List.filter_eq_nil_iff.mpr fun next member => ?_
      exact fun apart => of_decide_eq_true apart (polls next (Option.mem_toList.mp member))
    refine ⟨gone ++ [me], swaps.trans (isSwaps.trans (by simp)), ?_⟩
    rw [entries, isEntries, before, behind, List.append_nil]

/-- Stages other than that of the image are as before. -/
theorem Touches.stageOn {target : Int × Int}
    (touches : Touches state after lock me req target) {other : Int} (apart : other ≠ me) :
    after.stageOn lock other = state.stageOn lock other := by
  unfold State.stageOn
  rw [touches.call other apart]

/-- An image that does not poll is not given the lock. -/
theorem View.Sound.unmailed {view : View} (sound : view.Sound me)
    (stage : view.stage me ≠ some .polling) : .unlock ∉ view.mail me :=
  fun member => stage (sound.unlock member).1

variable {changed : LockRequest}

/-- An image is sound as long as it keeps its request and its mail. -/
theorem View.Sound.kept {view later : View} (sound : view.Sound me)
    (item : view.item me ≠ none) (unmailed : .unlock ∉ view.mail me)
    (itemSame : later.item me = view.item me) (mail : later.mail me = view.mail me)
    (request : later.request me ≠ none) (settled : later.Settled me) : later.Sound me where
  fits := by
    rw [itemSame]
    exact sound.fits
  backed _ := request
  staged := by
    rw [itemSame]
    exact fun _ => item
  mailNodup := by
    rw [mail]
    exact sound.mailNodup
  unlock := by
    rw [mail]
    exact fun member => absurd member unmailed
  settled := settled

/-- What a step of an image alone leaves of its request is sound. -/
theorem View.Sound.moved {view later : View}
    (sound : view.Sound me) (moved : Moved view later me request changed)
    (item : view.item me ≠ none) (unmailed : .unlock ∉ view.mail me)
    (settled : later.Settled me) : later.Sound me :=
  sound.kept item unmailed moved.item moved.mail (moved.left ▸ Option.some_ne_none _) settled

/-- Whoever writes to another's request is sound. -/
theorem View.Sound.writer {view later : View} {target : Int}
    {parts : List Part} (sound : view.Sound me)
    (wrote : Wrote view later me target parts) (item : view.item me ≠ none)
    (unmailed : .unlock ∉ view.mail me) (settled : later.Settled me) :
    later.Sound me :=
  sound.kept item unmailed (congrFun wrote.item me) wrote.mail
    (wrote.request ▸ sound.backed item) settled

/-- An image without a request and outside of its calls is sound. -/
theorem View.Sound.gone (gone : state.reqTable me lock = none)
    (behind : state.stageOn lock me = none) : (state.view lock).Sound me where
  fits := by
    rw [State.view_item, gone]
    rintro _ ⟨⟩
  backed := fun item => absurd gone item
  staged := fun stage => absurd behind stage
  mailNodup := by
    rw [State.view_mail_none gone]
    exact List.nodup_nil
  unlock := by
    rw [State.view_mail_none gone]
    nofun
  settled := by
    unfold View.Settled
    rw [State.view_stage, behind]
    trivial

namespace Safe

variable (safe : Safe job state)
include safe

/-- A step of a call that keeps its request. -/
theorem acted {target : Int × Int} (called : state.call me = some call)
    (touches : Touches state after call.lock me call.req target)
    (item : after.reqTable = state.reqTable)
    (next : ∀ later, after.call me = some later → later.lock = call.lock ∧ later.req = call.req)
    (aim : state.reqTable target.1 call.lock = some target.2)
    (served : Served job after call.lock) : Safe job after := by
  have sorted := safe.sorted
  have listed := sorted.calls me call called
  refine ⟨?_, fun lock => ?_⟩
  · refine sorted.touched touches (sorted.own called) ?_ ?_ ?_ ?_
    · intro later isLater
      obtain ⟨sameLock, sameReq⟩ := next later isLater
      rw [item, sameLock, sameReq]
      exact listed
    · intro ofst found
      rw [item, listed] at found
      exact (Option.some.inj found).symm
    · exact fun ofst found => .inl (item ▸ found)
    · exact .inr ⟨call.lock, item ▸ aim⟩
  · by_cases here : lock = call.lock
    · exact here ▸ served
    · refine (safe.served lock).congr ?_ (touches.swaps lock here) (touches.entries lock here)
      refine touches.view_other here (sorted.own called) ?_ ?_ ?_
      · rintro image ofst found rfl
        exact here (sorted.tables image lock call.lock ofst found aim)
      · exact State.forall_call called rfl
      · exact fun later isLater => (next later isLater).1

/-- A step of a call that returns without the lock. -/
theorem dismissed (called : state.call me = some call)
    (touches : Touches state after call.lock me call.req (me, call.req))
    (item : after.reqTable me call.lock = none)
    (overrun : after.call me = none) (inFlight : after.inFlight = state.inFlight)
    (unmailed : state.mailOf me call.req = [])
    (served : Served job after call.lock) : Safe job after := by
  have sorted := safe.sorted
  have listed := sorted.calls me call called
  refine ⟨?_, fun lock => ?_⟩
  · refine sorted.touched touches (sorted.own called) ?_ ?_ ?_ (.inl inFlight)
    · exact State.forall_call_none overrun
    · intro ofst found
      rw [item] at found
      cases found
    · intro ofst found
      rw [listed] at found
      exact .inr (Option.some.inj found ▸ unmailed)
  · by_cases here : lock = call.lock
    · exact here ▸ served
    · refine (safe.served lock).congr ?_ (touches.swaps lock here) (touches.entries lock here)
      refine touches.view_other here (sorted.own called) ?_ ?_ ?_
      · intro image ofst found same
        obtain ⟨rfl, rfl⟩ := Prod.mk.inj same
        exact here (sorted.own called lock found)
      · exact State.forall_call called rfl
      · exact State.forall_call_none overrun

end Safe

/-! ## Steps within a call -/

/-- The stages between which an image stays where it is in the queue. -/
def Stage.Stays : Option Stage → Prop
  | some (.swapping _) | some .freeing | some (.restoring _)
  | some .polling => False
  | _ => True

theorem Stage.Stays.ne {stage : Option Stage} (stays : Stage.Stays stage) :
    (∀ trial, stage ≠ some (.swapping trial)) ∧ stage ≠ some .freeing ∧
      (∀ v, stage ≠ some (.restoring v)) ∧ stage ≠ some .polling := by
  refine ⟨?_, ?_, ?_, ?_⟩ <;> intros <;> rintro rfl <;> exact stays

theorem View.active_of_stays {view : View} (item : view.item me ≠ none)
    (stays : Stage.Stays (view.stage me)) : view.Active me :=
  ⟨item, stays.ne.1, stays.ne.2.1⟩

/-- An image goes on, and stays where it is in the queue. -/
theorem Served.restage (served : Served job state lock)
    (touches : Touches state after lock me req (me, req))
    (moved : Moved (state.view lock) (after.view lock) me request changed)
    (item : state.reqTable me lock ≠ none) (word : after.word lock = state.word lock)
    (swaps : after.swaps lock = state.swaps lock)
    (entries : after.entries lock = state.entries lock)
    (stays : Stage.Stays (state.stageOn lock me)) (staysAfter : Stage.Stays (after.stageOn lock me))
    (next : ∀ a, a ≠ me → (state.view lock).Next a me → (after.view lock).Next a me)
    (owner : (state.view lock).Owner me → (after.view lock).Owner me)
    (settled : (after.view lock).Settled me)
    (plain : job.release = .compareAndSwap →
      ¬Stage.SwapOnly (state.stageOn lock me) → ¬Stage.SwapOnly (after.stageOn lock me)) :
    Served job after lock := by
  obtain ⟨main, asides, queue, orderly⟩ := served
  have unmailed := (queue.sound me).unmailed stays.ne.2.2.2
  have itemAfter : (after.view lock).item me ≠ none := by
    rw [moved.item]
    exact item
  refine ⟨main, asides, ?_, fun compares => ?_⟩
  · exact queue.restage moved word (View.active_of_stays item stays)
      (View.active_of_stays itemAfter staysAfter)
      ((queue.sound me).moved moved item unmailed settled) next
      (fun head => owner (queue.owner me head)) stays.ne.2.2.1
      staysAfter.ne.2.2.1
  · exact (orderly compares).keep (fun other apart => touches.stageOn apart)
      swaps entries (plain compares ((orderly compares).plain me))
      fun _ => iff_of_false staysAfter.ne.2.2.2 stays.ne.2.2.2

variable {u : Option LockWord}

/-- A release keeps its usurper while it waits. -/
theorem Moved.next_awaiting {view later : View}
    {a : Int} (moved : Moved view later me request changed) (apart : a ≠ me)
    (stage : view.stage me = some (.awaitingDone u) ∧
        later.stage me = some (.awaitingImage u) ∨
      view.stage me = some (.awaitingImage u) ∧ later.stage me = some (.handing u))
    (next : view.Next a me) : later.Next a me := by
  have same := moved.others a apart
  obtain ⟨own, isOwn, waits⟩ := next
  refine ⟨own, same.request.trans isOwn, ?_⟩
  rw [same.mail, moved.naming]
  rcases stage with ⟨before, behind⟩ | ⟨before, behind⟩
  all_goals
    rw [before] at waits
    rw [behind]
    cases u with
    | none | some u => exact waits

theorem View.owner_of_awaiting {view later : View}
    (stage : view.stage me = some (.awaitingDone u) ∧
        later.stage me = some (.awaitingImage u) ∨
      view.stage me = some (.awaitingImage u) ∧ later.stage me = some (.handing u))
    (owner : view.Owner me) : later.Owner me := by
  unfold View.Owner at owner ⊢
  rcases stage with ⟨before, behind⟩ | ⟨before, behind⟩
  all_goals
    rw [before] at owner
    rw [behind]
    cases u with
    | none => exact trivial
    | some u => exact owner

namespace Safe

variable (safe : Safe job state) (called : state.call me = some call)
  (found : state.request me call.req = some request)
include safe called found

/-- A call goes on, and its request but for the flag stays as it is. -/
theorem goesOn {stage : Stage}
    (isAfter : after = (state.setRequest me call.req (some changed)).goOn me
      (some { call with stage }))
    (fields : changed.image = request.image ∧ changed.ofst = request.ofst ∧
      changed.done = request.done)
    (stays : Stage.Stays (some call.stage)) (staysAfter : Stage.Stays (some stage))
    (next : ∀ a, a ≠ me →
      Moved (state.view call.lock) (after.view call.lock) me request changed →
      (state.view call.lock).stage me = some call.stage →
      (after.view call.lock).stage me = some stage →
      (state.view call.lock).Next a me → (after.view call.lock).Next a me)
    (owner : (state.view call.lock).stage me = some call.stage →
      (after.view call.lock).stage me = some stage →
      (state.view call.lock).Owner me → (after.view call.lock).Owner me)
    (settled :
      Moved (state.view call.lock) (after.view call.lock) me request changed →
      (after.view call.lock).stage me = some stage →
      (after.view call.lock).Settled me)
    (plain : job.release = .compareAndSwap →
      ¬Stage.SwapOnly (some call.stage) → ¬Stage.SwapOnly (some stage)) :
    Safe job after := by
  have listed := safe.sorted.calls me call called
  have before := State.stageOn_call called
  have calledAfter : after.call me = some { call with stage } := by
    rw [isAfter]
    exact update_self _ _ _
  have behind : after.stageOn call.lock me = some stage := State.stageOn_call calledAfter
  have touches : Touches state after call.lock me call.req (me, call.req) := by
    rw [isAfter]
    exact (Touches.setRequest _).trans (Touches.goOn _)
  have left : after.request me call.req = some changed := by
    rw [isAfter]
    simp [State.setRequest, State.goOn]
  have item : after.reqTable = state.reqTable := by
    rw [isAfter]
    rfl
  have moved := touches.moved listed (item ▸ listed) (by rw [isAfter]; rfl) found left fields
  refine safe.acted called touches item ?_ listed ?_
  · exact State.forall_call calledAfter ⟨rfl, rfl⟩
  · refine (safe.served call.lock).restage touches moved ?_ ?_ ?_ ?_ ?_ ?_ ?_ ?_ ?_ ?_
    · rw [listed]
      exact Option.some_ne_none _
    · rw [isAfter]
      rfl
    · rw [isAfter]
      rfl
    · rw [isAfter]
      rfl
    · rw [before]
      exact stays
    · rw [behind]
      exact staysAfter
    · exact fun a apart => next a apart moved before behind
    · exact owner before behind
    · exact settled moved behind
    · rw [before, behind]
      exact plain

omit safe called in
theorem setRequest_self : state.setRequest me call.req (some request) = state := by
  unfold State.setRequest
  rw [← found, update_eq_self, update_eq_self]

/-- `marking`: the flag is set before the predecessor is written to. -/
theorem marked {p : LockWord} (stage : call.stage = .marking p) :
    Safe job ((state.setRequest me call.req
      (some { request with locked := true })).goOn me
        (some { call with stage := .linking p })) := by
  refine safe.goesOn called found rfl ⟨rfl, rfl, rfl⟩ ?_ trivial ?_ ?_ ?_ ?_
  · rw [stage]
    trivial
  · intro a apart moved before behind next
    have same := moved.others a apart
    obtain ⟨own, isOwn, waits⟩ := next
    refine ⟨own, same.request.trans isOwn, ?_⟩
    rw [before, stage] at waits
    rw [behind, same.mail, moved.naming]
    exact ⟨waits.1, waits.2, _, moved.left, rfl⟩
  · intro before _ owner
    unfold View.Owner at owner
    rw [before, stage] at owner
    exact owner.elim
  · intro _ behind
    unfold View.Settled
    rw [behind]
    trivial
  · exact fun _ _ => id

/-- `awaitingDone`: the successor is seen to have written. -/
theorem sawDone (stage : call.stage = .awaitingDone u) (done : request.done = true) :
    Safe job (state.goOn me (some { call with stage := .awaitingImage u })) := by
  refine safe.goesOn called found
    (congrArg (State.goOn · me _) (setRequest_self found).symm)
    ⟨rfl, rfl, rfl⟩ ?_ trivial ?_ ?_ ?_ ?_
  · rw [stage]
    trivial
  · exact fun a apart moved before behind =>
      moved.next_awaiting apart (.inl ⟨stage ▸ before, behind⟩)
  · exact fun before behind =>
      View.owner_of_awaiting (.inl ⟨stage ▸ before, behind⟩)
  · intro moved behind
    unfold View.Settled
    rw [behind]
    exact ⟨request, moved.left, done⟩
  · rw [stage]
    cases u with
    | none => exact fun _ _ => id
    | some u => exact fun _ plain => plain

/-- `awaitingImage`: the successor is seen to have written its number. -/
theorem sawImage (stage : call.stage = .awaitingImage u) (whole : ¬state.Written me call.req) :
    Safe job (state.goOn me (some { call with stage := .handing u })) := by
  have listed := safe.sorted.calls me call called
  refine safe.goesOn called found
    (congrArg (State.goOn · me _) (setRequest_self found).symm)
    ⟨rfl, rfl, rfl⟩ ?_ trivial ?_ ?_ ?_ ?_
  · rw [stage]
    trivial
  · exact fun a apart moved before behind =>
      moved.next_awaiting apart (.inr ⟨stage ▸ before, behind⟩)
  · exact fun before behind =>
      View.owner_of_awaiting (.inr ⟨stage ▸ before, behind⟩)
  · intro moved behind
    obtain ⟨main, asides, queue, -⟩ := safe.served call.lock
    have settled := (queue.sound me).settled
    unfold View.Settled at settled ⊢
    rw [State.view_stage, State.stageOn_call called, stage] at settled
    rw [behind]
    refine ⟨?_, ?_⟩
    · rw [moved.mail, State.view_mail listed]
      refine List.eq_nil_iff_forall_not_mem.mpr fun part member => ?_
      exact whole ⟨_, State.mem_mailOf.mp member, rfl, rfl⟩
    · obtain ⟨own, isOwn, done⟩ := settled
      obtain rfl := Option.some.inj (moved.found.symm.trans isOwn)
      exact ⟨request, moved.left, done⟩
  · rw [stage]
    cases u with
    | none => exact fun _ _ => id
    | some u => exact fun _ plain => plain

omit found in
/-- A call writes to the request of another image and goes on. -/
theorem writes {target : Int × Int} {parts : List Part} {stage : Stage}
    (isAfter : after = (state.commWrite target.1 target.2 parts).goOn me (some { call with stage }))
    (apart : target.1 ≠ me)
    (aim : state.reqTable target.1 call.lock = some target.2)
    (served :
      Touches state after call.lock me call.req target →
      Wrote (state.view call.lock) (after.view call.lock) me target.1 parts →
      (after.view call.lock).stage me = some stage →
      Served job after call.lock) : Safe job after := by
  have calledAfter : after.call me = some { call with stage } := by
    rw [isAfter]
    exact update_self _ _ _
  have behind : after.stageOn call.lock me = some stage := State.stageOn_call calledAfter
  have touches : Touches state after call.lock me call.req target := by
    rw [isAfter]
    exact (Touches.commWrite _).trans (Touches.goOn _)
  have item : after.reqTable = state.reqTable := by
    rw [isAfter]
    rfl
  refine safe.acted called touches item ?_ aim ?_
  · exact State.forall_call calledAfter ⟨rfl, rfl⟩
  · refine served touches (touches.wrote apart item ?_ aim ?_) behind
    · rw [isAfter]
      rfl
    · rw [isAfter]
      rfl

omit found in
/-- `linking`: the request is written to the predecessor. -/
theorem linked {p : LockWord} (stage : call.stage = .linking p) :
    Safe job ((state.commWrite p.image p.ofst (linkParts me call.req)).goOn me
      (some { call with stage := .polling })) := by
  have listed := safe.sorted.calls me call called
  have before := State.stageOn_call called
  rw [stage] at before
  obtain ⟨main, asides, queue, orderly⟩ := safe.served call.lock
  have sound := queue.sound me
  have inTable := State.view_item_ne listed
  have active : (state.view call.lock).Active me := ⟨inTable, by simp [before], by simp [before]⟩
  have notOwner : ¬(state.view call.lock).Owner me := by
    unfold View.Owner
    rw [State.view_stage, before]
    exact id
  obtain ⟨a, adjoins, own, isOwn, waits⟩ := queue.behind_of_stage active notOwner (by simp [before])
  rw [State.view_stage, before] at waits
  obtain ⟨isNaming, isBlank, flag⟩ := waits
  obtain ⟨ofst, item⟩ := Option.ne_none_iff_exists'.mp ((queue.members a).mp adjoins.mem_left).1
  rw [queue.naming_eq item] at isNaming
  subst isNaming
  rw [(sound.fits call.req listed).linkParts_eq]
  refine @safe.writes _ _ _ _ _ called (a, ofst) _ _ rfl
    (adjoins.ne queue.nodup) item fun touches wrote behind => ?_
  refine ⟨main, asides, ?_, fun compares => ?_⟩
  · refine queue.link wrote rfl listed before behind adjoins ?_
    refine sound.writer wrote inTable (sound.unmailed (by simp [before])) ?_
    unfold View.Settled
    rw [behind]
    trivial
  · refine (orderly compares).keep (fun other apart => touches.stageOn apart)
      rfl rfl ?_ fun head => ?_
    · rw [← State.view_stage, behind]
      exact id
    · exact absurd adjoins (Adjoins.ne_head queue.nodup List.mem_cons_self head)

/-- `handing`: the release writes to the successor, or to the usurper. -/
theorem handed (stage : call.stage = .handing u) :
    Safe job ((hand state request u).goOn me (some { call with stage := .freeing })) := by
  have listed := safe.sorted.calls me call called
  have before := State.stageOn_call called
  rw [stage] at before
  obtain ⟨main, asides, queue, orderly⟩ := safe.served call.lock
  have sound := queue.sound me
  have inTable := State.view_item_ne listed
  obtain ⟨next, ofst, own, adjoins, isOwn, image, offset, done, item, polls,
    flag, empty⟩ := queue.successor before
  rw [State.view_request listed, found] at isOwn
  obtain rfl := Option.some.inj isOwn
  have settled : ∀ {target parts} {later : View},
      Wrote (state.view call.lock) later me target parts →
      later.stage me = some .freeing → later.Settled me := by
    intro target parts later wrote behind
    unfold View.Settled
    rw [behind, wrote.mail]
    exact empty
  have unmailed := @View.Sound.unmailed me _ sound (by simp [before])
  cases u with
  | none =>
      unfold hand
      rw [image, offset]
      refine @safe.writes _ _ _ _ _ called (next, ofst) _ _ rfl
        (adjoins.ne queue.nodup).symm item fun touches wrote behind => ?_
      refine ⟨_, _, queue.pass wrote rfl before behind adjoins polls flag
        (sound.writer wrote inTable unmailed (settled wrote behind)) empty,
        fun compares => ?_⟩
      have head : main.head? = some me :=
        queue.head_of_stage ((queue.members me).mp adjoins.mem_left) (fun a => not_next_of_stage (by
            rw [State.view_stage, before]
            trivial)) (by simp [before])
      obtain ⟨rest, rfl⟩ := queue.front head adjoins
      have nodup := List.nodup_cons.mp ((List.nodup_flatten.mp queue.nodup).1 _ List.mem_cons_self)
      have kept : (me :: next :: rest).filter (· ≠ me) = next :: rest := by
        rw [List.filter_cons_of_neg (by simp)]
        refine List.filter_eq_self.mpr fun other member => decide_eq_true ?_
        rintro rfl
        exact nodup.1 member
      rw [kept, (orderly compares).alone]
      refine (orderly compares).leave
        (fun other apart => touches.stageOn apart) rfl rfl (by simp [before])
        ?_ ?_
      · rw [← State.view_stage, behind]
        exact id
      · rintro _ ⟨⟩
        rw [touches.stageOn (adjoins.ne queue.nodup).symm]
        exact polls
  | some u =>
      have active := (queue.members me).mp adjoins.mem_left
      have notOwner : ¬(state.view call.lock).Owner me := by
        unfold View.Owner
        rw [State.view_stage, before]
        exact id
      obtain ⟨a, ahead, _, _, waits⟩ := queue.behind_of_stage active notOwner (by simp [before])
      rw [State.view_stage, before] at waits
      obtain ⟨aim, isAim⟩ := Option.ne_none_iff_exists'.mp ((queue.members a).mp ahead.mem_left).1
      have isNaming := waits.1
      rw [queue.naming_eq isAim] at isNaming
      subst isNaming
      unfold hand LockRequest.copied
      rw [image, offset]
      refine @safe.writes _ _ _ _ _ called (a, aim) _ _ rfl
        (ahead.ne queue.nodup) isAim fun touches wrote behind => ?_
      refine ⟨_, _, queue.splice wrote rfl before behind ahead adjoins item
        polls flag (sound.writer wrote inTable unmailed (settled wrote behind))
        empty, fun compares => ?_⟩
      have plain := (orderly compares).plain me
      rw [before] at plain
      exact absurd trivial plain

end Safe

/-! ## Getting the lock -/

namespace Safe

variable (safe : Safe job state) (called : state.call me = some call)
include safe called

/-- `polling`: the flag is seen reset, and the lock call returns. -/
theorem polled (found : state.request me call.req = some request)
    (stage : call.stage = .polling) (unlocked : request.locked = false) :
    Safe job (state.entered call.lock me) := by
  have listed := safe.sorted.calls me call called
  have before := State.stageOn_call called
  rw [stage] at before
  generalize isAfter : state.entered call.lock me = after
  have overrun : after.call me = none := by
    rw [← isAfter]
    exact update_self _ _ _
  have behind : after.stageOn call.lock me = none := State.stageOn_none overrun
  have touches : Touches state after call.lock me call.req (me, call.req) := by
    rw [← isAfter]
    exact Touches.entered
  have item : after.reqTable = state.reqTable := by
    rw [← isAfter]
    rfl
  have moved := touches.moved listed (item ▸ listed)
    (by rw [← isAfter]; rfl) found (by rw [← isAfter]; exact found)
    ⟨rfl, rfl, rfl⟩
  obtain ⟨main, asides, queue, orderly⟩ := safe.served call.lock
  have sound := queue.sound me
  have noFlag : ¬(state.view call.lock).Flag me := by
    rintro ⟨own, isOwn, locked⟩
    rw [State.view_request listed, found] at isOwn
    rw [← Option.some.inj isOwn, unlocked] at locked
    cases locked
  have notNext : ∀ a, ¬(state.view call.lock).Next a me := by
    rintro a ⟨own, -, waits⟩
    rw [State.view_stage, before] at waits
    exact noFlag waits.2
  have inTable := State.view_item_ne listed
  have active : (state.view call.lock).Active me := ⟨inTable, by simp [before], by simp [before]⟩
  have activeAfter : (after.view call.lock).Active me := by
    refine ⟨?_, ?_, ?_⟩
    · rw [moved.item]
      exact inTable
    · simp [behind]
    · simp [behind]
  have head := queue.head_of_stage active notNext (by simp [before])
  refine safe.acted called touches item ?_ listed ?_
  · exact State.forall_call_none overrun
  · refine ⟨main, asides, ?_, fun compares => ?_⟩
    · refine queue.restage moved (by rw [← isAfter]; rfl) active activeAfter
        (sound.moved moved inTable (fun member => noFlag (sound.unlock member).2) ?_)
        (fun a _ next => absurd next (notNext a)) (fun _ => ?_)
        (by simp [before]) (by simp [behind])
      · unfold View.Settled
        rw [State.view_stage, behind]
        trivial
      · unfold View.Owner
        rw [State.view_stage, behind]
        trivial
    · obtain ⟨alone, plain, gone, isSwaps, isEntries⟩ := orderly compares
      obtain ⟨rest, rfl⟩ := List.head?_eq_some_iff.mp head
      refine ⟨alone, fun other => ?_, gone, ?_, ?_⟩
      · by_cases here : other = me
        · rw [here, behind]
          exact id
        · rw [touches.stageOn here]
          exact plain other
      · rw [← isAfter]
        exact isSwaps
      · have outside : (state.view call.lock).inside (me :: rest) = [] :=
          List.filter_cons_of_neg fun apart =>
            of_decide_eq_true apart before
        have inside : (after.view call.lock).inside (me :: rest) = [me] :=
          List.filter_cons_of_pos (decide_eq_true (by simp [behind]))
        rw [outside, List.append_nil] at isEntries
        rw [inside, ← isEntries, ← isAfter]
        exact update_self _ _ _

omit safe in
/-- An image is at its swap: its request is fresh, and nobody writes to it. -/
theorem waiting {trial : Bool} (stage : call.stage = .swapping trial)
    (queue : Queue (state.view call.lock) main asides) :
    (state.view call.lock).request me = some LockRequest.fresh ∧
      (state.view call.lock).mail me = [] ∧
      ¬(state.view call.lock).Active me := by
  have before := State.stageOn_call called
  rw [stage] at before
  have settled := (queue.sound me).settled
  unfold View.Settled at settled
  rw [State.view_stage, before] at settled
  exact ⟨settled.1, settled.2, fun active => active.2.1 trial before⟩

/-- The request of an image joins the queue by a swap of the word. -/
theorem joined {trial : Bool} (stage : call.stage = .swapping trial)
    (queue : Queue (state.view call.lock) main asides)
    (touches : Touches state after call.lock me call.req (me, call.req))
    (item : after.reqTable = state.reqTable) (inFlight : after.inFlight = state.inFlight)
    (request : after.request = state.request) (word : after.word call.lock = .taken me call.req)
    (later : after.stageOn call.lock me = none ∧ main = [] ∨
      ∃ last, main.getLast? = some last ∧ after.stageOn call.lock me =
        some (.marking ((state.view call.lock).naming last))) :
    Queue (after.view call.lock) (main ++ [me]) asides := by
  have listed := safe.sorted.calls me call called
  obtain ⟨fresh, empty, inactive⟩ := waiting called stage queue
  have sound := queue.sound me
  have itemMe : after.reqTable me call.lock = some call.req := item ▸ listed
  have requestMe : (after.view call.lock).request me = some LockRequest.fresh := by
    rw [State.view_request itemMe, request, ← State.view_request listed]
    exact fresh
  have mailMe : (after.view call.lock).mail me = [] := by
    rw [State.view_mail itemMe]
    rw [State.view_mail listed] at empty
    unfold State.mailOf at empty ⊢
    rw [inFlight]
    exact empty
  have others := touches.others
  have stays : (∀ v, after.stageOn call.lock me ≠ some (.restoring v)) ∧
      (∀ trial, after.stageOn call.lock me ≠ some (.swapping trial)) ∧
      after.stageOn call.lock me ≠ some .freeing := by
    rcases later with ⟨none, -⟩ | ⟨last, -, marks⟩
    · simp [none]
    · simp [marks]
  refine queue.join others ?_ inactive ?_ ?_ stays.1 ?_ ?_ ?_ ?_
  · rw [State.view_word, word]
    unfold View.naming
    rw [State.view_item, itemMe]
    rfl
  · refine ⟨?_, stays.2.1, stays.2.2⟩
    rw [State.view_item, itemMe]
    exact Option.some_ne_none _
  · refine ⟨?_, ?_, ?_, ?_, ?_, ?_⟩
    · rw [State.view_item, itemMe, ← listed]
      exact sound.fits
    · rw [requestMe]
      exact fun _ => Option.some_ne_none _
    · rw [State.view_item, itemMe]
      exact fun _ => Option.some_ne_none _
    · rw [mailMe]
      exact List.nodup_nil
    · rw [mailMe]
      nofun
    · unfold View.Settled
      rw [State.view_stage]
      rcases later with ⟨none, -⟩ | ⟨last, -, marks⟩
      · rw [none]
        trivial
      · rw [marks]
        trivial
  · rw [mailMe]
    exact List.not_mem_nil
  · refine ⟨LockRequest.fresh, requestMe, rfl, rfl, rfl, ?_⟩
    rw [mailMe]
    nofun
  · intro isEmpty
    unfold View.Owner
    rw [State.view_stage]
    rcases later with ⟨none, -⟩ | ⟨last, isLast, -⟩
    · rw [none]
      trivial
    · rw [isEmpty] at isLast
      cases isLast
  · intro last isLast
    rcases later with ⟨-, isEmpty⟩ | ⟨tip, isTip, marks⟩
    · rw [isEmpty] at isLast
      cases isLast
    · obtain rfl := Option.some.inj (isTip.symm.trans isLast)
      obtain ⟨own, isOwn, blank⟩ := queue.opened main List.mem_cons_self tip isTip
      have apart : tip ≠ me := by
        rintro rfl
        exact inactive (queue.active List.mem_cons_self (List.mem_of_getLast? isTip))
      have same := others tip apart
      refine ⟨own, same.request.trans isOwn, ?_⟩
      rw [State.view_stage, marks, same.mail]
      exact ⟨same.naming.symm, blank⟩

end Safe

/-- The word of a lock is unset, or names a request. -/
theorem Queue.word_eq (queue : Queue (state.view lock) main asides) :
    state.word lock = LockWord.unset ∧ main = [] ∨
      ∃ last, main.getLast? = some last ∧
        state.word lock = (state.view lock).naming last ∧
        (state.word lock).locked = true := by
  have word := queue.word
  rw [State.view_word] at word
  cases isLast : main.getLast? with
  | none =>
      rw [isLast] at word
      exact .inl ⟨word, List.getLast?_eq_none_iff.mp isLast⟩
  | some last =>
      rw [isLast] at word
      exact .inr ⟨last, rfl, word, by rw [word]; rfl⟩

/-- The history where an image puts its request on the lock. -/
theorem Orderly.join (orderly : Orderly state lock main asides) (inactive : me ∉ main)
    (others : ∀ other, other ≠ me → after.stageOn lock other = state.stageOn lock other)
    (swaps : after.swaps lock = state.swaps lock ++ [me])
    (plain : ¬Stage.SwapOnly (after.stageOn lock me))
    (entries : after.stageOn lock me ≠ some .polling ∧ main = [] ∧
        after.entries lock = state.entries lock ++ [me] ∨
      main ≠ [] ∧ after.entries lock = state.entries lock) :
    Orderly after lock (main ++ [me]) asides where
  alone := orderly.alone
  plain := orderly.plain_after others plain
  history := by
    obtain ⟨gone, isSwaps, isEntries⟩ := orderly.history
    refine ⟨gone, by rw [swaps, isSwaps, List.append_assoc], ?_⟩
    rcases entries with ⟨stage, rfl, isAfter⟩ | ⟨nonempty, isAfter⟩
    · have inside : (after.view lock).inside [me] = [me] :=
        List.filter_cons_of_pos (decide_eq_true stage)
      rw [isAfter, isEntries, List.nil_append, inside]
      simp [View.inside]
    · obtain ⟨head, rest, rfl⟩ := List.exists_cons_of_ne_nil nonempty
      have apart : head ≠ me := by
        rintro rfl
        exact inactive List.mem_cons_self
      rw [isAfter, isEntries]
      congr 1
      refine List.filter_congr fun other member => ?_
      obtain rfl : other = head := by simpa using member
      refine decide_eq_decide.mpr (not_congr ?_)
      exact iff_of_eq (congrArg (· = some Stage.polling) (others other apart).symm)

namespace Safe

variable (safe : Safe job state) (called : state.call me = some call)
include safe called

/-- `swapping`: the request is put on the lock word. -/
theorem swapped {trial : Bool} (stage : call.stage = .swapping trial) :
    Safe job (swap state me call) := by
  obtain ⟨main, asides, queue, orderly⟩ := safe.served call.lock
  have listed := safe.sorted.calls me call called
  have inactive := (waiting called stage queue).2.2
  have outside : me ∉ main := fun member =>
    inactive (queue.active List.mem_cons_self member)
  generalize isAfter : swap state me call = after
  unfold swap afterSwap at isAfter
  rcases queue.word_eq with ⟨unset, isEmpty⟩ | ⟨last, isLast, names, locked⟩
  · rw [unset, if_neg (by decide)] at isAfter
    have overrun : after.call me = none := by
      rw [← isAfter]
      exact update_self _ _ _
    have behind : after.stageOn call.lock me = none := State.stageOn_none overrun
    have touches : Touches state after call.lock me call.req (me, call.req) := by
      rw [← isAfter]
      exact ((Touches.setWord _).trans Touches.swapped).trans Touches.entered
    have item : after.reqTable = state.reqTable := by
      rw [← isAfter]
      rfl
    refine safe.acted called touches item ?_ listed ⟨main ++ [me], asides,
      ?_, fun compares => (orderly compares).join outside
        (fun other apart => touches.stageOn apart) ?_ ?_ ?_⟩
    · exact State.forall_call_none overrun
    · refine safe.joined called stage queue touches item ?_ ?_ ?_ (.inl ⟨behind, isEmpty⟩)
      · rw [← isAfter]
        rfl
      · rw [← isAfter]
        rfl
      · rw [← isAfter]
        exact update_self _ _ _
    · rw [← isAfter]
      exact update_self _ _ _
    · rw [behind]
      exact id
    · refine .inl ⟨by simp [behind], isEmpty, ?_⟩
      rw [← isAfter]
      exact update_self _ _ _
  · rw [if_pos locked] at isAfter
    have calledAfter : after.call me =
        some { call with stage := .marking (state.word call.lock) } := by
      rw [← isAfter]
      exact update_self _ _ _
    have behind : after.stageOn call.lock me = some (.marking (state.word call.lock)) :=
      State.stageOn_call calledAfter
    have touches : Touches state after call.lock me call.req (me, call.req) := by
      rw [← isAfter]
      exact ((Touches.setWord _).trans Touches.swapped).trans (Touches.goOn _)
    have item : after.reqTable = state.reqTable := by
      rw [← isAfter]
      rfl
    refine safe.acted called touches item ?_ listed ⟨main ++ [me], asides,
      ?_, fun compares => (orderly compares).join outside
        (fun other apart => touches.stageOn apart) ?_ ?_ ?_⟩
    · exact State.forall_call calledAfter ⟨rfl, rfl⟩
    · refine safe.joined called stage queue touches item ?_ ?_ ?_
        (.inr ⟨last, isLast, names ▸ behind⟩)
      · rw [← isAfter]
        rfl
      · rw [← isAfter]
        rfl
      · rw [← isAfter]
        exact update_self _ _ _
    · rw [← isAfter]
      exact update_self _ _ _
    · rw [behind]
      exact id
    · refine .inr ⟨?_, ?_⟩
      · rintro rfl
        cases isLast
      · rw [← isAfter]
        rfl

/-- An image that is not in the queue returns from its call. -/
theorem freed (out : ∃ trial, call.stage = .swapping trial ∨
    call.stage = .freeing) : Safe job (state.dismiss me call) := by
  obtain ⟨main, asides, queue, orderly⟩ := safe.served call.lock
  have listed := safe.sorted.calls me call called
  have before := State.stageOn_call called
  have sound := queue.sound me
  have empty : (state.view call.lock).mail me = [] := by
    have settled := sound.settled
    unfold View.Settled at settled
    obtain ⟨trial, stage | stage⟩ := out
    · rw [State.view_stage, before, stage] at settled
      exact settled.2
    · rw [State.view_stage, before, stage] at settled
      exact settled
  have inactive : ¬(state.view call.lock).Active me := by
    rintro ⟨-, swaps, frees⟩
    obtain ⟨trial, stage | stage⟩ := out
    · exact swaps trial (stage ▸ before)
    · exact frees (stage ▸ before)
  have notPolling : call.stage ≠ .polling := by
    obtain ⟨trial, stage | stage⟩ := out
    · simp [stage]
    · simp [stage]
  generalize isAfter : state.dismiss me call = after
  have overrun : after.call me = none := by
    rw [← isAfter]
    exact update_self _ _ _
  have behind : after.stageOn call.lock me = none := State.stageOn_none overrun
  have touches : Touches state after call.lock me call.req (me, call.req) := by
    rw [← isAfter]
    exact Touches.dismiss
  have gone : after.reqTable me call.lock = none := by
    rw [← isAfter]
    simp [State.dismiss, State.setItem, State.setRequest, State.goOn]
  have others := touches.others
  rw [State.view_mail listed] at empty
  refine safe.dismissed called touches gone overrun (by rw [← isAfter]; rfl)
    empty ⟨main, asides, ?_, fun compares => ?_⟩
  · exact queue.idle others (by rw [← isAfter]; rfl) inactive
      (fun active => active.1 gone) (.gone gone behind) (by simp [behind])
  · refine (orderly compares).keep (fun other apart => touches.stageOn apart)
      (by rw [← isAfter]; rfl) (by rw [← isAfter]; rfl) ?_ fun head => ?_
    · rw [behind]
      exact id
    · exact absurd (queue.active_head head) inactive

/-- `swapping` with `SUCCESS=`: the word is swapped where it is unset. -/
theorem tried {trial : Bool} (stage : call.stage = .swapping trial) :
    Safe job (trySwap state me call) := by
  obtain ⟨main, asides, queue, -⟩ := safe.served call.lock
  rcases queue.word_eq with ⟨unset, -⟩ | ⟨last, -, -, locked⟩
  · have same : trySwap state me call = swap state me call := by
      unfold trySwap swap
      dsimp only
      rw [if_pos unset, unset]
      exact if_neg (by decide)
    rw [same]
    exact safe.swapped called stage
  · have apart : state.word call.lock ≠ LockWord.unset := by
      intro unset
      rw [unset] at locked
      cases locked
    unfold trySwap
    dsimp only
    rw [if_neg apart, if_pos locked]
    exact safe.freed called ⟨trial, .inl stage⟩

end Safe

end OpenUH.Libcaf.CoarrayLock
