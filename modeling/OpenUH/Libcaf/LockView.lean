import OpenUH.Libcaf.LockQueueSteps

/-!
# What a step of an image touches

A step of a call on a lock touches the word, the item and the request of that
lock, and writes at most to one other request of it.  Every other lock is seen
as before.
-/

namespace OpenUH.Libcaf.CoarrayLock

open Foundation

variable {state after later : State} {lock other : Lock} {me req : Int}
  {target : Int × Int}

/-! ## A lock as it is seen -/

/-- The parts on their way to a request. -/
def State.mailOf (state : State) (image ofst : Int) : List Part :=
  (state.inFlight.filter fun message =>
    message.image = image ∧ message.ofst = ofst).map (·.part)

/-- What one lock consists of in a state. -/
def State.view (state : State) (lock : Lock) : View where
  word := state.word lock
  item me := state.reqTable me lock
  stage := state.stageOn lock
  request := state.requestFor lock
  mail me := ((state.reqTable me lock).map (state.mailOf me)).getD []

namespace State

@[simp]
theorem view_word : (state.view lock).word = state.word lock := rfl

@[simp]
theorem view_item : (state.view lock).item me = state.reqTable me lock := rfl

theorem view_item_ne (item : state.reqTable me lock = some req) :
    (state.view lock).item me ≠ none := by
  rw [view_item, item]
  exact Option.some_ne_none _

@[simp]
theorem view_stage : (state.view lock).stage me = state.stageOn lock me := rfl

theorem view_request (item : state.reqTable me lock = some req) :
    (state.view lock).request me = state.request me req := by
  simp only [view, requestFor, item, Option.bind_some]

theorem view_mail (item : state.reqTable me lock = some req) :
    (state.view lock).mail me = state.mailOf me req := by
  simp only [view, item, Option.map_some, Option.getD_some]

theorem view_request_none (item : state.reqTable me lock = none) :
    (state.view lock).request me = none := by
  simp only [view, requestFor, item, Option.bind_none]

theorem view_mail_none (item : state.reqTable me lock = none) : (state.view lock).mail me = [] := by
  simp only [view, item, Option.map_none, Option.getD_none]

theorem stageOn_call {call : Call} (called : state.call me = some call) :
    state.stageOn call.lock me = some call.stage := by
  unfold stageOn
  rw [called, Option.bind_some, if_pos rfl]

theorem stageOn_none (idle : state.call me = none) : state.stageOn lock me = none := by
  unfold stageOn
  rw [idle]
  rfl

theorem stageOn_ne {call : Call} (called : state.call me = some call)
    (apart : call.lock ≠ lock) : state.stageOn lock me = none := by
  unfold stageOn
  rw [called, Option.bind_some, if_neg apart]

/-- The calls of an image that makes one. -/
theorem forall_call {call : Call} {holds : Call → Prop} (called : state.call me = some call)
    (here : holds call) : ∀ later, state.call me = some later → holds later := by
  intro later isLater
  rw [called] at isLater
  exact Option.some.inj isLater ▸ here

theorem forall_call_none {holds : Call → Prop} (idle : state.call me = none) :
    ∀ later, state.call me = some later → holds later := by
  intro later isLater
  rw [idle] at isLater
  cases isLater

theorem mem_mailOf {image ofst : Int} {part : Part} :
    part ∈ state.mailOf image ofst ↔ ({ image, ofst, part } : Message) ∈ state.inFlight := by
  unfold mailOf
  rw [List.mem_map]
  constructor
  · rintro ⟨message, member, rfl⟩
    obtain ⟨inside, same⟩ := List.mem_filter.mp member
    obtain ⟨rfl, rfl⟩ := of_decide_eq_true same
    exact inside
  · intro member
    exact ⟨_, List.mem_filter.mpr ⟨member, by simp⟩, rfl⟩

end State

/-- An image is seen as before where its item, stage and request are. -/
theorem same_view (item : after.reqTable me lock = state.reqTable me lock)
    (stage : after.stageOn lock me = state.stageOn lock me)
    (kept : ∀ req, state.reqTable me lock = some req →
      after.request me req = state.request me req ∧ after.mailOf me req = state.mailOf me req) :
    Same (state.view lock) (after.view lock) me := by
  cases found : state.reqTable me lock with
  | none =>
      have still := item.trans found
      exact ⟨item, stage,
        (State.view_request_none still).trans (State.view_request_none found).symm,
        (State.view_mail_none still).trans (State.view_mail_none found).symm⟩
  | some req =>
      have still := item.trans found
      obtain ⟨request, mail⟩ := kept req found
      exact ⟨item, stage,
        (State.view_request still).trans (request.trans (State.view_request found).symm),
        (State.view_mail still).trans (mail.trans (State.view_mail found).symm)⟩

theorem view_eq_of_same (word : after.word lock = state.word lock)
    (same : ∀ me, Same (state.view lock) (after.view lock) me) :
    after.view lock = state.view lock := by
  ext1
  · exact word
  · exact funext fun me => (same me).item
  · exact funext fun me => (same me).stage
  · exact funext fun me => (same me).request
  · exact funext fun me => (same me).mail

/-! ## Calls, tables and messages agree -/

/-- Requests belong to one lock each, calls and messages to requests. -/
structure Sorted (state : State) : Prop where
  calls : ∀ me call, state.call me = some call → state.reqTable me call.lock = some call.req
  tables : ∀ me first second req, state.reqTable me first = some req →
    state.reqTable me second = some req → first = second
  owned : ∀ message ∈ state.inFlight,
    ∃ lock, state.reqTable message.image lock = some message.ofst

/-! ## What a step touches -/

/-- A step on a lock, with a request, that writes to no more than a target. -/
structure Touches (state after : State) (lock : Lock) (me req : Int)
    (target : Int × Int) : Prop where
  word : ∀ other, other ≠ lock → after.word other = state.word other
  swaps : ∀ other, other ≠ lock → after.swaps other = state.swaps other
  entries : ∀ other, other ≠ lock → after.entries other = state.entries other
  item : ∀ image other, image ≠ me ∨ other ≠ lock →
    after.reqTable image other = state.reqTable image other
  call : ∀ image, image ≠ me → after.call image = state.call image
  request : ∀ image ofst, image ≠ me ∨ ofst ≠ req →
    after.request image ofst = state.request image ofst
  inFlight : ∃ parts : List Part, after.inFlight = state.inFlight ++
    parts.map ({ image := target.1, ofst := target.2, part := · })

namespace Touches

theorem refl (state : State) (lock : Lock) (me req : Int)
    (target : Int × Int) : Touches state state lock me req target where
  word _ _ := rfl
  swaps _ _ := rfl
  entries _ _ := rfl
  item _ _ _ := rfl
  call _ _ := rfl
  request _ _ _ := rfl
  inFlight := ⟨[], by simp⟩

theorem trans (first : Touches state after lock me req target)
    (second : Touches after later lock me req target) :
    Touches state later lock me req target where
  word other apart := (second.word other apart).trans (first.word other apart)
  swaps other apart := (second.swaps other apart).trans (first.swaps other apart)
  entries other apart := (second.entries other apart).trans (first.entries other apart)
  item image other apart := (second.item image other apart).trans (first.item image other apart)
  call image apart := (second.call image apart).trans (first.call image apart)
  request image ofst apart :=
    (second.request image ofst apart).trans (first.request image ofst apart)
  inFlight := by
    obtain ⟨parts, isFirst⟩ := first.inFlight
    obtain ⟨others, isSecond⟩ := second.inFlight
    exact ⟨parts ++ others, by rw [isSecond, isFirst]; simp⟩

theorem setWord (word : LockWord) : Touches state (state.setWord lock word) lock me req target :=
  { refl state lock me req target with
    word := fun _ apart => Function.update_of_ne apart _ _ }

theorem swapped : Touches state (state.swapped lock me) lock me req target :=
  { refl state lock me req target with
    swaps := fun _ apart => Function.update_of_ne apart _ _ }

theorem goOn (call : Option Call) : Touches state (state.goOn me call) lock me req target :=
  { refl state lock me req target with
    call := fun _ apart => Function.update_of_ne apart _ _ }

theorem entered : Touches state (state.entered lock me) lock me req target :=
  { refl state lock me req target with
    call := fun _ apart => Function.update_of_ne apart _ _
    entries := fun _ apart => Function.update_of_ne apart _ _ }

theorem setRequest (request : Option LockRequest) :
    Touches state (state.setRequest me req request) lock me req target :=
  { refl state lock me req target with
    request := by
      intro image ofst apart
      unfold State.setRequest
      by_cases here : image = me
      · subst here
        have there := apart.resolve_left (not_not_intro rfl)
        simp [there]
      · simp [here] }

theorem setItem (item : Option Int) :
    Touches state (state.setItem me lock item) lock me req target :=
  { refl state lock me req target with
    item := by
      intro image other apart
      unfold State.setItem
      by_cases here : image = me
      · subst here
        have there := apart.resolve_left (not_not_intro rfl)
        simp [there]
      · simp [here] }

theorem commWrite (parts : List Part) :
    Touches state (state.commWrite target.1 target.2 parts) lock me req
      target :=
  { refl state lock me req target with
    inFlight := ⟨parts, rfl⟩ }

theorem dismiss {call : Call} :
    Touches state (state.dismiss me call) call.lock me call.req target :=
  ((setItem none).trans (setRequest none)).trans (goOn none)

/-! What a touched state looks like. -/

variable (touches : Touches state after lock me req target)
include touches

theorem mailOf {image ofst : Int} (apart : (image, ofst) ≠ target) :
    after.mailOf image ofst = state.mailOf image ofst := by
  obtain ⟨parts, isAfter⟩ := touches.inFlight
  unfold State.mailOf
  rw [isAfter, List.filter_append, List.map_append]
  have none : (parts.map fun part =>
      (⟨target.1, target.2, part⟩ : Message)).filter
        (fun message => message.image = image ∧ message.ofst = ofst) = [] := by
    refine List.filter_eq_nil_iff.mpr fun message member => ?_
    obtain ⟨part, -, rfl⟩ := List.mem_map.mp member
    intro same
    obtain ⟨rfl, rfl⟩ := of_decide_eq_true same
    exact apart rfl
  rw [none]
  simp

/-- A step on a lock leaves other images as they were. -/
theorem same {image : Int} (apart : image ≠ me)
    (untargeted : ∀ ofst, state.reqTable image lock = some ofst → (image, ofst) ≠ target) :
    Same (state.view lock) (after.view lock) image := by
  refine same_view (touches.item image lock (.inl apart)) ?_ ?_
  · unfold State.stageOn
    rw [touches.call image apart]
  · exact fun ofst found => ⟨touches.request image ofst (.inl apart),
      touches.mailOf (untargeted ofst found)⟩

/-- A step on a lock leaves the others as they were. -/
theorem view_other (apart : other ≠ lock)
    (own : ∀ other, state.reqTable me other = some req → other = lock)
    (untargeted : ∀ image ofst, state.reqTable image other = some ofst → (image, ofst) ≠ target)
    (before : ∀ call, state.call me = some call → call.lock = lock)
    (behind : ∀ call, after.call me = some call → call.lock = lock) :
    after.view other = state.view other := by
  have stageOf : ∀ state : State,
      (∀ call, state.call me = some call → call.lock = lock) → state.stageOn other me = none := by
    intro state onLock
    cases called : state.call me with
    | none => exact State.stageOn_none called
    | some call =>
        refine State.stageOn_ne called ?_
        rw [onLock call called]
        exact apart.symm
  refine view_eq_of_same (touches.word other apart) fun image => ?_
  refine same_view (touches.item image other (.inr apart)) ?_ ?_
  · by_cases here : image = me
    · rw [here, stageOf after behind, stageOf state before]
    · unfold State.stageOn
      rw [touches.call image here]
  · intro ofst found
    refine ⟨touches.request image ofst ?_, touches.mailOf (untargeted image ofst found)⟩
    by_cases here : image = me
    · refine .inr ?_
      rintro rfl
      exact apart (own other (here ▸ found))
    · exact .inl here

omit touches in
/-- A step that writes to nobody leaves the other images as they were. -/
theorem others (touches : Touches state after lock me req (me, req)) (image : Int)
    (apart : image ≠ me) : Same (state.view lock) (after.view lock) image :=
  touches.same apart fun _ _ same => apart (congrArg Prod.fst same)

end Touches

/-- A step that writes to nobody is one of the image alone. -/
theorem Touches.moved {request changed : LockRequest}
    (touches : Touches state after lock me req (me, req)) (item : state.reqTable me lock = some req)
    (itemAfter : after.reqTable me lock = some req) (inFlight : after.inFlight = state.inFlight)
    (found : state.request me req = some request) (left : after.request me req = some changed)
    (fields : changed.image = request.image ∧ changed.ofst = request.ofst ∧
      changed.done = request.done) :
    Moved (state.view lock) (after.view lock) me request changed where
  others := touches.others
  item := itemAfter.trans item.symm
  mail := by
    rw [State.view_mail item, State.view_mail itemAfter]
    unfold State.mailOf
    rw [inFlight]
  found := (State.view_request item).trans found
  left := (State.view_request itemAfter).trans left
  image := fields.1
  ofst := fields.2.1
  done := fields.2.2

/-- A step that writes to the request of another image. -/
theorem Touches.wrote {parts : List Part} (touches : Touches state after lock me req target)
    (apart : target.1 ≠ me) (item : after.reqTable = state.reqTable)
    (request : after.request = state.request) (aim : state.reqTable target.1 lock = some target.2)
    (inFlight : after.inFlight = state.inFlight ++
      parts.map ({ image := target.1, ofst := target.2, part := · })) :
    Wrote (state.view lock) (after.view lock) me target.1 parts where
  others image notMe notTarget :=
    touches.same notMe fun _ _ same => notTarget (congrArg Prod.fst same)
  apart := apart
  item := by
    funext image
    rw [State.view_item, State.view_item, item]
  request := by
    unfold State.view State.requestFor
    rw [item, request]
  stage := by
    rw [State.view_stage, State.view_stage]
    unfold State.stageOn
    rw [touches.call target.1 apart]
  mail := by
    cases found : state.reqTable me lock with
    | none =>
        rw [State.view_mail_none found, State.view_mail_none (by rw [item]; exact found)]
    | some ofst =>
        rw [State.view_mail found, State.view_mail (by rw [item]; exact found : _ = some ofst)]
        refine touches.mailOf fun same => ?_
        exact apart (congrArg Prod.fst same).symm
  written := by
    rw [State.view_mail aim, State.view_mail (by rw [item]; exact aim)]
    unfold State.mailOf
    rw [inFlight, List.filter_append, List.map_append]
    congr 1
    rw [List.filter_eq_self.mpr]
    · rw [List.map_map]
      exact List.map_id' parts
    · intro message member
      obtain ⟨part, -, rfl⟩ := List.mem_map.mp member
      simp

/-- What is left of a list without the element at an index. -/
theorem exists_eraseIdx {α : Type} {list : List α} {index : Nat} {element : α}
    (member : list[index]? = some element) :
    ∃ before behind, list = before ++ element :: behind ∧
      list.eraseIdx index = before ++ behind := by
  obtain ⟨below, isElement⟩ := List.getElem?_eq_some_iff.mp member
  refine ⟨list.take index, list.drop (index + 1), ?_, List.eraseIdx_eq_take_drop_succ _ _⟩
  rw [← isElement, List.getElem_cons_drop below, List.take_append_drop]

/-- A state with a part of a request landed. -/
def State.landed (state : State) (index : Nat) (message : Message)
    (request : LockRequest) : State :=
  { state with inFlight := state.inFlight.eraseIdx index }.setRequest
    message.image message.ofst (some (request.receive message.part))

section Landing

variable {index : Nat} {message : Message} {request : LockRequest}
  (member : state.inFlight[index]? = some message)
include member

theorem mailOf_landed_ne {image ofst : Int}
    (apart : (image, ofst) ≠ (message.image, message.ofst)) :
    (state.landed index message request).mailOf image ofst = state.mailOf image ofst := by
  obtain ⟨before, behind, split, erased⟩ := exists_eraseIdx member
  have other : ¬(message.image = image ∧ message.ofst = ofst) := by
    rintro ⟨rfl, rfl⟩
    exact apart rfl
  have left : (state.landed index message request).inFlight = before ++ behind := erased
  unfold State.mailOf
  rw [left, split, List.filter_append, List.filter_append,
    List.filter_cons_of_neg (by simpa using other)]

theorem mailOf_landed (nodup : (state.mailOf message.image message.ofst).Nodup) :
    (state.landed index message request).mailOf message.image message.ofst =
      (state.mailOf message.image message.ofst).erase message.part := by
  obtain ⟨before, behind, split, erased⟩ := exists_eraseIdx member
  have left : (state.landed index message request).inFlight = before ++ behind := erased
  unfold State.mailOf at nodup ⊢
  rw [split, List.filter_append, List.filter_cons_of_pos (by simp),
    List.map_append, List.map_cons] at nodup ⊢
  rw [left, List.filter_append, List.map_append, List.erase_append_right, List.erase_cons_head]
  intro inside
  exact (List.nodup_append.mp nodup).2.2 _ inside _ List.mem_cons_self rfl

theorem same_landed {image : Int}
    (apart : ∀ ofst, state.reqTable image lock = some ofst →
      (image, ofst) ≠ (message.image, message.ofst)) :
    Same (state.view lock) ((state.landed index message request).view lock)
      image := by
  refine same_view rfl rfl fun ofst found =>
    ⟨?_, mailOf_landed_ne member (apart ofst found)⟩
  have other := apart ofst found
  unfold State.landed State.setRequest
  by_cases here : image = message.image
  · subst here
    have there : ofst ≠ message.ofst := by
      rintro rfl
      exact other rfl
    simp [there]
  · simp [here]

/-- A write in flight lands in the request it is for. -/
theorem landed_view (item : state.reqTable message.image lock = some message.ofst)
    (found : state.request message.image message.ofst = some request)
    (nodup : (state.mailOf message.image message.ofst).Nodup) :
    Landed (state.view lock) ((state.landed index message request).view lock)
      message.image message.part request where
  others _ apart := same_landed member fun _ _ same => apart (congrArg Prod.fst same)
  item := rfl
  stage := rfl
  member := by
    rw [State.view_mail item, State.mem_mailOf]
    exact List.mem_of_getElem? member
  mail := by
    have still : (state.landed index message request).reqTable message.image
        lock = some message.ofst := item
    rw [State.view_mail item, State.view_mail still, mailOf_landed member nodup]
  found := (State.view_request item).trans found
  left := by
    have still : (state.landed index message request).reqTable message.image
        lock = some message.ofst := item
    rw [State.view_request still]
    simp [State.landed, State.setRequest]

end Landing

/-! ## Keeping the order -/

namespace Sorted

variable (sorted : Sorted state)
include sorted

/-- A call names its own request. -/
theorem own {call : Call} (called : state.call me = some call) :
    ∀ other, state.reqTable me other = some call.req → other = call.lock :=
  fun other found => sorted.tables me other call.lock call.req found (sorted.calls me call called)

/-- A step on a lock keeps the tables, the calls and the messages in order. -/
theorem touched (touches : Touches state after lock me req target)
    (own : ∀ other, state.reqTable me other = some req → other = lock)
    (calls : ∀ call, after.call me = some call → after.reqTable me call.lock = some call.req)
    (item : ∀ ofst, after.reqTable me lock = some ofst → ofst = req)
    (left : ∀ ofst, state.reqTable me lock = some ofst →
      after.reqTable me lock = some ofst ∨ state.mailOf me ofst = [])
    (owned : after.inFlight = state.inFlight ∨
      ∃ other, after.reqTable target.1 other = some target.2) :
    Sorted after where
  calls image call called := by
    by_cases here : image = me
    · subst here
      exact calls call called
    · rw [touches.item image call.lock (.inl here)]
      exact sorted.calls image call (touches.call image here ▸ called)
  tables image first second ofst isFirst isSecond := by
    by_cases here : image = me
    · subst here
      have old : ∀ other, other ≠ lock →
          after.reqTable image other = some ofst → state.reqTable image other = some ofst :=
        fun other apart found => touches.item image other (.inr apart) ▸ found
      by_cases firstHere : first = lock
      · by_cases secondHere : second = lock
        · rw [firstHere, secondHere]
        · subst firstHere
          obtain rfl := item ofst isFirst
          exact (own second (old second secondHere isSecond)).symm
      · by_cases secondHere : second = lock
        · subst secondHere
          obtain rfl := item ofst isSecond
          exact own first (old first firstHere isFirst)
        · exact sorted.tables image first second ofst
            (old first firstHere isFirst) (old second secondHere isSecond)
    · rw [touches.item image first (.inl here)] at isFirst
      rw [touches.item image second (.inl here)] at isSecond
      exact sorted.tables image first second ofst isFirst isSecond
  owned := by
    have kept : ∀ message ∈ state.inFlight,
        ∃ lock, after.reqTable message.image lock = some message.ofst := by
      intro message member
      obtain ⟨other, found⟩ := sorted.owned message member
      by_cases here : message.image = me ∧ other = lock
      · obtain ⟨isMe, rfl⟩ := here
        rcases left message.ofst (isMe ▸ found) with still | empty
        · exact ⟨other, isMe ▸ still⟩
        · have inMail : message.part ∈ state.mailOf me message.ofst :=
            State.mem_mailOf.mpr (isMe ▸ member)
          rw [empty] at inMail
          cases inMail
      · refine ⟨other, ?_⟩
        rw [touches.item message.image other (by tauto)]
        exact found
    intro message member
    rcases owned with same | ⟨other, found⟩
    · exact kept message (same ▸ member)
    · obtain ⟨parts, isAfter⟩ := touches.inFlight
      rw [isAfter] at member
      rcases List.mem_append.mp member with old | new
      · exact kept message old
      · obtain ⟨part, -, rfl⟩ := List.mem_map.mp new
        exact ⟨other, found⟩

end Sorted

end OpenUH.Libcaf.CoarrayLock
