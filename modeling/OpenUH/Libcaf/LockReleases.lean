import OpenUH.Libcaf.LockCalls

/-!
# Releases, beginnings and landings

The invariant of locks is kept by the atomic steps of both kinds of release,
by the beginnings of calls, and by the writes that land.
-/

namespace OpenUH.Libcaf.CoarrayLock

open Foundation
open Function (update_self)

variable {job : Job} {state after : State} {lock : Lock} {me req : Int}
  {main : List Int} {asides : List (List Int)} {call : Call}
  {request : LockRequest}

/-! ## The word at a release -/

/-- Whoever is the first and the last is alone. -/
theorem Queue.sole {view : View} (queue : Queue view main asides)
    (head : main.head? = some me) (last : main.getLast? = some me) :
    main = [me] := by
  obtain ⟨tail, rfl⟩ := List.head?_eq_some_iff.mp head
  obtain ⟨before, split⟩ := List.getLast?_eq_some_iff.mp last
  have own := (List.nodup_flatten.mp queue.nodup).1 _ List.mem_cons_self
  rw [← (Adjoins.split_unique own (List.nil_append _).symm split).2]

namespace Safe

variable (safe : Safe job state) (called : state.call me = some call)
include safe called

/-- A release begins at the owner. -/
theorem releasing (stage : call.stage = .comparing ∨ call.stage = .resetting)
    (queue : Queue (state.view call.lock) main asides) :
    main.head? = some me ∧
      .unlock ∉ (state.view call.lock).mail me ∧
      ∃ last, main.getLast? = some last ∧
        state.word call.lock = (state.view call.lock).naming last ∧
        (state.word call.lock).image = last := by
  have listed := safe.sorted.calls me call called
  have before := State.stageOn_call called
  have stays : Stage.Stays (some call.stage) ∧ Stage.Ahead (some call.stage) := by
    rcases stage with stage | stage <;> rw [stage] <;> exact ⟨trivial, trivial⟩
  have active : (state.view call.lock).Active me := by
    refine View.active_of_stays ?_ ?_
    · exact State.view_item_ne listed
    · rw [State.view_stage, before]
      exact stays.1
  have head : main.head? = some me := by
    refine queue.head_of_stage active (fun a => not_next_of_stage ?_) ?_
    · rw [State.view_stage, before]
      exact stays.2
    · rw [State.view_stage, before]
      exact stays.1.ne.2.2.1
  refine ⟨head, (queue.sound me).unmailed ?_, ?_⟩
  · rw [State.view_stage, before]
    exact stays.1.ne.2.2.2
  · rcases queue.word_eq with ⟨-, rfl⟩ | ⟨last, isLast, names, -⟩
    · cases head
    · refine ⟨last, isLast, names, ?_⟩
      rw [names]
      exact queue.naming_image (queue.active List.mem_cons_self (List.mem_of_getLast? isLast))

/-- The owner finds nobody behind it, and unsets the word. -/
theorem drained (stage : call.stage = .comparing ∨ call.stage = .resetting)
    (sole : (state.word call.lock).image = me) :
    state.word call.lock = .taken me call.req ∧
      Safe job ((state.setWord call.lock LockWord.unset).dismiss me call) := by
  obtain ⟨main, asides, queue, orderly⟩ := safe.served call.lock
  have listed := safe.sorted.calls me call called
  have before := State.stageOn_call called
  obtain ⟨head, unmailed, last, isLast, names, image⟩ := safe.releasing called stage queue
  obtain rfl : last = me := image.symm.trans sole
  obtain rfl := queue.sole head isLast
  have empty : state.mailOf last call.req = [] := by
    rw [← State.view_mail listed]
    obtain ⟨own, -, blank⟩ := queue.opened [last] List.mem_cons_self last rfl
    refine List.eq_nil_iff_forall_not_mem.mpr fun part member => ?_
    exact unmailed (blank.only part member ▸ member)
  refine ⟨?_, ?_⟩
  · rw [names]
    unfold View.naming
    rw [State.view_item, listed]
    rfl
  generalize isAfter : (state.setWord call.lock LockWord.unset).dismiss last call = after
  have overrun : after.call last = none := by
    rw [← isAfter]
    exact update_self _ _ _
  have behind : after.stageOn call.lock last = none := State.stageOn_none overrun
  have touches : Touches state after call.lock last call.req (last, call.req) := by
    rw [← isAfter]
    exact (Touches.setWord _).trans Touches.dismiss
  have gone : after.reqTable last call.lock = none := by
    rw [← isAfter]
    simp [State.dismiss, State.setItem, State.setRequest, State.goOn]
  have others := touches.others
  refine safe.dismissed called touches gone overrun (by rw [← isAfter]; rfl)
    empty ⟨[], asides, ?_, fun compares => ?_⟩
  · refine queue.drain rfl others ?_ (fun active => active.1 gone) (.gone gone behind)
      (by simp [behind]) ?_
    · rw [← isAfter]
      exact update_self _ _ _
    · rw [State.view_mail_none gone]
      exact List.not_mem_nil
  · rw [(orderly compares).alone]
    refine (orderly compares).leave
      (fun other apart => touches.stageOn apart) (by rw [← isAfter]; rfl)
      (by rw [← isAfter]; rfl) ?_ ?_ ?_
    · rw [before]
      rcases stage with stage | stage <;> simp [stage]
    · rw [behind]
      exact id
    · rintro next ⟨⟩

/-- `comparing`: the word is unset where it names the image. -/
theorem compared (found : state.request me call.req = some request)
    (stage : call.stage = .comparing) : Safe job (compare state me call) := by
  obtain ⟨main, asides, queue, -⟩ := safe.served call.lock
  have listed := safe.sorted.calls me call called
  unfold compare
  dsimp only
  by_cases sole : (state.word call.lock).image = me
  · obtain ⟨own, kept⟩ := safe.drained called (.inl stage) sole
    rw [if_pos sole, if_pos own]
    exact kept
  · have apart : state.word call.lock ≠ .taken me call.req := by
      intro same
      rw [same, (((queue.sound me).fits call.req listed)).taken_eq] at sole
      exact sole rfl
    rw [if_neg sole, if_neg apart]
    refine safe.goesOn called found
      (congrArg (State.goOn · me _) (setRequest_self found).symm)
      ⟨rfl, rfl, rfl⟩ ?_ trivial ?_ ?_ ?_ ?_
    · rw [stage]
      trivial
    · intro a _ _ before _ next
      refine absurd next (not_next_of_stage ?_)
      rw [before, stage]
      trivial
    · intro _ behind _
      unfold View.Owner
      rw [behind]
      trivial
    · intro _ behind
      unfold View.Settled
      rw [behind]
      trivial
    · exact fun _ _ => id

/-- `resetting`: the chain is taken off the word. -/
theorem wasReset (found : state.request me call.req = some request)
    (stage : call.stage = .resetting) : Safe job (reset state me call) := by
  unfold reset
  dsimp only
  by_cases sole : (state.word call.lock).image = me
  · rw [if_pos sole]
    exact (safe.drained called (.inr stage) sole).2
  · rw [if_neg sole]
    obtain ⟨main, asides, queue, orderly⟩ := safe.served call.lock
    have listed := safe.sorted.calls me call called
    have before := State.stageOn_call called
    rw [stage] at before
    obtain ⟨head, unmailed, -⟩ := safe.releasing called (.inr stage) queue
    generalize isAfter : (state.setWord call.lock LockWord.unset).goOn me
      (some { call with stage := .restoring (state.word call.lock) }) = after
    have calledAfter : after.call me =
        some { call with stage := .restoring (state.word call.lock) } := by
      rw [← isAfter]
      exact update_self _ _ _
    have behind : after.stageOn call.lock me = some (.restoring (state.word call.lock)) :=
      State.stageOn_call calledAfter
    have touches : Touches state after call.lock me call.req (me, call.req) := by
      rw [← isAfter]
      exact (Touches.setWord _).trans (Touches.goOn _)
    have item : after.reqTable = state.reqTable := by
      rw [← isAfter]
      rfl
    have moved := touches.moved listed (item ▸ listed)
      (by rw [← isAfter]; rfl) found (by rw [← isAfter]; exact found)
      ⟨rfl, rfl, rfl⟩
    refine safe.acted called touches item ?_ listed ⟨[], main :: asides, ?_, fun compares => ?_⟩
    · exact State.forall_call calledAfter ⟨rfl, rfl⟩
    · refine queue.takeOff moved head ?_ behind ?_ (by simp [before]) unmailed
      · rw [← isAfter]
        exact update_self _ _ _
      · refine (queue.sound me).moved moved ?_ unmailed ?_
        · exact State.view_item_ne listed
        · unfold View.Settled
          rw [State.view_stage, behind]
          trivial
    · have plain := (orderly compares).plain me
      rw [before] at plain
      exact absurd trivial plain

/-- `restoring`: the chain is put back, behind the usurper. -/
theorem restored {v : LockWord} (found : state.request me call.req = some request)
    (stage : call.stage = .restoring v) :
    Safe job (restore state me call v) := by
  obtain ⟨main, asides, queue, orderly⟩ := safe.served call.lock
  have listed := safe.sorted.calls me call called
  have before := State.stageOn_call called
  rw [stage] at before
  obtain ⟨chain, inside, head⟩ := queue.restoring me v before
  generalize isAfter : restore state me call v = after
  unfold restore at isAfter
  dsimp only at isAfter
  have calledAfter : after.call me = some
      { call with
        stage := .awaitingDone (if (state.word call.lock).image ≠ 0 then
          some (state.word call.lock) else none) } := by
    rw [← isAfter]
    exact update_self _ _ _
  have behind := State.stageOn_call calledAfter
  have touches : Touches state after call.lock me call.req (me, call.req) := by
    rw [← isAfter]
    exact (Touches.setWord _).trans (Touches.goOn _)
  have item : after.reqTable = state.reqTable := by
    rw [← isAfter]
    rfl
  have moved := touches.moved listed (item ▸ listed)
    (by rw [← isAfter]; rfl) found (by rw [← isAfter]; exact found)
    ⟨rfl, rfl, rfl⟩
  have word : after.word call.lock = v := by
    rw [← isAfter]
    exact update_self _ _ _
  refine safe.acted called touches item ?_ listed
    ⟨main ++ chain, asides.erase chain, ?_, fun compares => ?_⟩
  · exact State.forall_call calledAfter ⟨rfl, rfl⟩
  · refine queue.putBack moved inside head ?_ behind ?_
    · rw [State.view_word, word]
      exact before
    · refine (queue.sound me).moved moved ?_ ((queue.sound me).unmailed (by simp [before])) ?_
      · exact State.view_item_ne listed
      · unfold View.Settled
        rw [State.view_stage, behind]
        trivial
  · have plain := (orderly compares).plain me
    rw [before] at plain
    exact absurd trivial plain

end Safe

/-! ## Beginnings and landings -/

namespace Safe

variable (safe : Safe job state)
include safe

/-- A lock call begins with a fresh request. -/
theorem startedLock {trial : Bool} (idle : state.call me = none)
    (free : state.request me req = none) (fits : Fits me req) :
    Safe job (startLock state me lock req trial) := by
  unfold startLock
  cases listed : state.reqTable me lock with
  | some _ => exact safe
  | none =>
      dsimp only
      have backed : ∀ other, state.reqTable me other ≠ some req := by
        intro other found
        obtain ⟨main, asides, queue, -⟩ := safe.served other
        have backed := (queue.sound me).backed (by
          rw [State.view_item, found]
          exact Option.some_ne_none _)
        rw [State.view_request found] at backed
        exact backed free
      have empty : state.mailOf me req = [] := by
        refine List.eq_nil_iff_forall_not_mem.mpr fun part member => ?_
        obtain ⟨other, found⟩ := safe.sorted.owned _ (State.mem_mailOf.mp member)
        exact backed other found
      generalize isAfter : ((state.setItem me lock (some req)).setRequest me req
        (some LockRequest.fresh)).goOn me (some { lock, req, stage := .swapping trial }) = after
      have calledAfter : after.call me = some { lock, req, stage := .swapping trial } := by
        rw [← isAfter]
        exact update_self _ _ _
      have behind : after.stageOn lock me = some (.swapping trial) := State.stageOn_call calledAfter
      have touches : Touches state after lock me req (me, req) := by
        rw [← isAfter]
        exact ((Touches.setItem _).trans (Touches.setRequest _)).trans (Touches.goOn _)
      have item : after.reqTable me lock = some req := by
        rw [← isAfter]
        simp [State.setItem, State.setRequest, State.goOn]
      have request : (after.view lock).request me = some LockRequest.fresh := by
        rw [State.view_request item, ← isAfter]
        simp [State.setItem, State.setRequest, State.goOn]
      have inFlight : after.inFlight = state.inFlight := by
        rw [← isAfter]
        rfl
      have mail : (after.view lock).mail me = [] := by
        rw [State.view_mail item]
        unfold State.mailOf at empty ⊢
        rw [inFlight]
        exact empty
      refine ⟨?_, fun other => ?_⟩
      · refine safe.sorted.touched touches (fun other found =>
          absurd found (backed other)) ?_ ?_ ?_ (.inl inFlight)
        · exact State.forall_call calledAfter item
        · intro ofst found
          rw [item] at found
          exact (Option.some.inj found).symm
        · intro ofst found
          rw [listed] at found
          cases found
      · by_cases here : other = lock
        · subst here
          obtain ⟨main, asides, queue, orderly⟩ := safe.served other
          have inactive : ¬(state.view other).Active me :=
            fun active => active.1 listed
          refine ⟨main, asides, ?_, fun compares => ?_⟩
          · refine queue.idle touches.others
              (by rw [← isAfter]; rfl) inactive ?_ ⟨?_, ?_, ?_, ?_, ?_, ?_⟩
              (by simp [behind])
            · exact fun active => active.2.1 trial behind
            · intro ofst found
              rw [State.view_item, item] at found
              exact Option.some.inj found ▸ fits
            · rw [request]
              exact fun _ => Option.some_ne_none _
            · rw [State.view_item, item]
              exact fun _ => Option.some_ne_none _
            · rw [mail]
              exact List.nodup_nil
            · rw [mail]
              exact fun member => absurd member List.not_mem_nil
            · unfold View.Settled
              rw [State.view_stage, behind]
              exact ⟨request, mail⟩
          · refine (orderly compares).keep
              (fun other apart => touches.stageOn apart)
              (by rw [← isAfter]; rfl) (by rw [← isAfter]; rfl) ?_
              fun head => absurd (queue.active_head head) inactive
            rw [behind]
            exact id
        · refine (safe.served other).congr ?_ (touches.swaps other here)
            (touches.entries other here)
          refine touches.view_other here (fun other found => absurd found (backed other)) ?_ ?_ ?_
          · intro image ofst found same
            obtain ⟨rfl, rfl⟩ := Prod.mk.inj same
            exact backed other found
          · exact State.forall_call_none idle
          · exact State.forall_call calledAfter rfl

/-- An unlock call looks at `done` first. -/
theorem startedUnlock (idle : state.call me = none)
    (started : startUnlock job state me lock = some after) :
    Safe job after := by
  unfold startUnlock at started
  cases listed : state.reqTable me lock with
  | none =>
      rw [listed] at started
      exact Option.some.inj started ▸ safe
  | some req =>
      rw [listed] at started
      obtain ⟨request, found, isAfter⟩ := Option.map_eq_some_iff.mp started
      obtain ⟨stage, staged, isAfter⟩ : ∃ stage,
          (request.done = true ∧ stage = .awaitingImage none ∨
            job.release = .compareAndSwap ∧ stage = .comparing ∨
            job.release = .swapOnly ∧ stage = .resetting) ∧
          state.goOn me (some { lock, req, stage }) = after := by
        refine ⟨_, ?_, isAfter⟩
        cases request.done
        · cases job.release
          · exact .inr (.inl ⟨rfl, rfl⟩)
          · exact .inr (.inr ⟨rfl, rfl⟩)
        · exact .inl ⟨rfl, rfl⟩
      have stays : Stage.Stays (some stage) ∧ Stage.Ahead (some stage) ∧
          (job.release = .compareAndSwap → ¬Stage.SwapOnly (some stage)) := by
        rcases staged with ⟨-, rfl⟩ | ⟨-, rfl⟩ | ⟨swaps, rfl⟩
        · exact ⟨trivial, trivial, fun _ => id⟩
        · exact ⟨trivial, trivial, fun _ => id⟩
        · rw [swaps]
          exact ⟨trivial, trivial, nofun⟩
      have calledAfter : after.call me = some { lock, req, stage } := by
        rw [← isAfter]
        exact update_self _ _ _
      have before : state.stageOn lock me = none := State.stageOn_none idle
      have behind : after.stageOn lock me = some stage := State.stageOn_call calledAfter
      have touches : Touches state after lock me req (me, req) := by
        rw [← isAfter]
        exact Touches.goOn _
      have item : after.reqTable = state.reqTable := by
        rw [← isAfter]
        rfl
      have moved := touches.moved listed (item ▸ listed)
        (by rw [← isAfter]; rfl) found (by rw [← isAfter]; exact found)
        ⟨rfl, rfl, rfl⟩
      have own : ∀ other, state.reqTable me other = some req → other = lock :=
        fun other isOther => safe.sorted.tables me other lock req isOther listed
      refine ⟨?_, fun other => ?_⟩
      · refine safe.sorted.touched touches own ?_ ?_ ?_ (.inr ⟨lock, item ▸ listed⟩)
        · exact State.forall_call calledAfter (item ▸ listed)
        · intro ofst isOfst
          rw [item, listed] at isOfst
          exact (Option.some.inj isOfst).symm
        · exact fun ofst isOfst => .inl (item ▸ isOfst)
      · by_cases here : other = lock
        · subst here
          refine (safe.served other).restage touches moved ?_ ?_ ?_ ?_ ?_ ?_ ?_ ?_ ?_ ?_
          · rw [listed]
            exact Option.some_ne_none _
          · rw [← isAfter]
            rfl
          · rw [← isAfter]
            rfl
          · rw [← isAfter]
            rfl
          · rw [before]
            trivial
          · rw [behind]
            exact stays.1
          · intro a _ next
            refine absurd next (not_next_of_stage ?_)
            rw [State.view_stage, before]
            trivial
          · intro _
            unfold View.Owner
            rw [State.view_stage, behind]
            rcases staged with ⟨-, rfl⟩ | ⟨-, rfl⟩ | ⟨-, rfl⟩ <;> trivial
          · unfold View.Settled
            rw [State.view_stage, behind]
            rcases staged with ⟨done, rfl⟩ | ⟨-, rfl⟩ | ⟨-, rfl⟩
            · exact ⟨request, moved.left, done⟩
            · trivial
            · trivial
          · rw [behind]
            exact fun compares _ => stays.2.2 compares
        · refine (safe.served other).congr ?_ (touches.swaps other here)
            (touches.entries other here)
          refine touches.view_other here own ?_ ?_ ?_
          · intro image ofst isOfst same
            obtain ⟨rfl, rfl⟩ := Prod.mk.inj same
            exact here (own other isOfst)
          · exact State.forall_call_none idle
          · exact State.forall_call calledAfter rfl

/-- A message in flight is for an allocated request. -/
theorem allocated {message : Message} (member : message ∈ state.inFlight) :
    ∃ request, state.request message.image message.ofst = some request := by
  obtain ⟨lock, item⟩ := safe.sorted.owned message member
  obtain ⟨main, asides, queue, -⟩ := safe.served lock
  have backed := (queue.sound message.image).backed (by
    rw [State.view_item, item]
    exact Option.some_ne_none _)
  rw [State.view_request item] at backed
  exact Option.ne_none_iff_exists'.mp backed

/-- A write in flight lands. -/
theorem delivered {index : Nat} (lands : deliver state index = some after) : Safe job after := by
  unfold deliver at lands
  obtain ⟨message, member, isAfter⟩ := Option.bind_eq_some_iff.mp lands
  have inside := List.mem_of_getElem? member
  obtain ⟨lock, item⟩ := safe.sorted.owned message inside
  obtain ⟨request, found⟩ := safe.allocated inside
  have same : after = state.landed index message request := by
    rw [← Option.some.inj isAfter]
    unfold State.landed
    dsimp only
    rw [found]
    rfl
  subst same
  refine ⟨⟨safe.sorted.calls, safe.sorted.tables, fun other isOther =>
    safe.sorted.owned other (List.mem_of_mem_eraseIdx isOther)⟩,
    fun other => ?_⟩
  by_cases here : other = lock
  · subst here
    obtain ⟨main, asides, queue, orderly⟩ := safe.served other
    have nodup := (queue.sound message.image).mailNodup
    rw [State.view_mail item] at nodup
    refine ⟨main, asides, queue.receive
      (landed_view member item found nodup) rfl, fun compares => ?_⟩
    exact (@Orderly.keep _ _ _ message.image _ _ (orderly compares)
      (fun _ _ => rfl) rfl rfl ((orderly compares).plain message.image)
      fun _ => Iff.rfl)
  · refine (safe.served other).congr ?_ rfl rfl
    refine view_eq_of_same rfl fun image => same_landed member ?_
    intro ofst isOfst same
    obtain ⟨rfl, rfl⟩ := Prod.mk.inj same
    exact here (safe.sorted.tables _ other lock _ isOfst item)

end Safe

end OpenUH.Libcaf.CoarrayLock
