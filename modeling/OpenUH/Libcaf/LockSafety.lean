import OpenUH.Libcaf.LockReleases

/-!
# Coarray locks are exclusive, first in first out, and never lost

The invariant of locks holds in every state reached by steps that meet the
condition.  One image at a time is between a lock call and the unlock call.
Locks released by compare-and-swap are served in the order of the swaps, and
none is lost; released by fetch-and-store alone, the requests form one chain
whenever nobody releases and nothing is in flight.
-/

namespace OpenUH.Libcaf.CoarrayLock

open Foundation

variable {job : Job} {state after : State} {lock : Lock} {me req : Int}
  {main : List Int} {asides : List (List Int)} {call : Call}
  {request : LockRequest}

/-! ## Every step -/

/-- Each step of a call keeps the invariant. -/
theorem Safe.act (safe : Safe job state) (met : Whole state me)
    (acted : act state me = some after) : Safe job after := by
  unfold CoarrayLock.act at acted
  obtain ⟨call, called, acted⟩ := Option.bind_eq_some_iff.mp acted
  obtain ⟨request, found, acted⟩ := Option.bind_eq_some_iff.mp acted
  cases stage : call.stage with
  | swapping trial =>
      rw [stage] at acted
      obtain rfl := Option.some.inj acted
      cases trial with
      | true => exact safe.tried called stage
      | false => exact safe.swapped called stage
  | marking p =>
      rw [stage] at acted
      exact Option.some.inj acted ▸ safe.marked called found stage
  | linking p =>
      rw [stage] at acted
      exact Option.some.inj acted ▸ safe.linked called stage
  | polling =>
      rw [stage] at acted
      dsimp only at acted
      split at acted
      · cases acted
      · rename_i unlocked
        exact Option.some.inj acted ▸
          safe.polled called found stage (Bool.eq_false_of_not_eq_true unlocked)
  | comparing =>
      rw [stage] at acted
      exact Option.some.inj acted ▸ safe.compared called found stage
  | resetting =>
      rw [stage] at acted
      exact Option.some.inj acted ▸ safe.wasReset called found stage
  | restoring v =>
      rw [stage] at acted
      exact Option.some.inj acted ▸ safe.restored called found stage
  | awaitingDone u =>
      rw [stage] at acted
      dsimp only at acted
      split at acted
      · rename_i done
        exact Option.some.inj acted ▸ safe.sawDone called found stage done
      · cases acted
  | awaitingImage u =>
      rw [stage] at acted
      dsimp only at acted
      split at acted
      · rename_i written
        exact Option.some.inj acted ▸ safe.sawImage called found stage
          (met call request u called stage found written)
      · cases acted
  | handing u =>
      rw [stage] at acted
      exact Option.some.inj acted ▸ safe.handed called found stage
  | freeing =>
      rw [stage] at acted
      exact Option.some.inj acted ▸ safe.freed called ⟨false, .inr stage⟩

/-- Each step that meets the condition keeps the invariant. -/
theorem Safe.step {move : Move} (safe : Safe job state)
    (enabled : Enabled job state move) (met : Meets state move)
    (stepped : step job state move = some after) : Safe job after := by
  cases move with
  | lock me lock req trial =>
      obtain ⟨positive, -, idle, nonneg, free⟩ := enabled
      exact Option.some.inj stepped ▸ safe.startedLock idle free ⟨positive, met.1, nonneg, met.2⟩
  | unlock me lock => exact safe.startedUnlock enabled.2.2 stepped
  | act me => exact safe.act met stepped
  | deliver index => exact safe.delivered stepped

/-- Before anybody has asked for a lock. -/
theorem safe_initial (job : Job) : Safe job initial := by
  refine ⟨⟨?_, ?_, ?_⟩, fun lock => ⟨[], [], ⟨?_, ?_, ?_, ?_, ?_, ?_, ?_, ?_,
    ?_, ?_⟩, fun _ => ⟨rfl, fun _ => id, [], rfl, rfl⟩⟩⟩
  · rintro me call ⟨⟩
  · rintro me first second req ⟨⟩
  · nofun
  · refine fun me => ⟨?_, ?_, ?_, List.nodup_nil, ?_, trivial⟩
    · rintro req ⟨⟩
    · exact fun absent => absurd rfl absent
    · exact fun absent => absurd rfl absent
    · nofun
  · exact List.nodup_nil
  · exact fun me => ⟨nofun, fun active => absurd rfl active.1⟩
  · rfl
  · rintro a b ⟨chain, inside, front, rest, split⟩
    obtain rfl := List.mem_singleton.mp inside
    simp at split
  · intro chain inside last isLast
    obtain rfl := List.mem_singleton.mp inside
    cases isLast
  · rintro me ⟨⟩
  · nofun
  · rintro me v ⟨⟩
  · nofun

/-- The invariant holds in every state that is reached. -/
theorem safe_reached (reached : Reached job Meets state) : Safe job state :=
  reached.invariant
    (fun _ isInitial => isInitial ▸ safe_initial job)
    fun _ _ safe ⟨_, enabled, met, stepped⟩ => safe.step enabled met stepped

/-! ## What the invariant says -/

/-- Whoever holds a lock is the first of its queue. -/
theorem Queue.head_of_holds (queue : Queue (state.view lock) main asides)
    (holds : state.Holds lock me) : main.head? = some me := by
  have idle : state.stageOn lock me = none := holds.2
  refine queue.head_of_stage ⟨holds.1, ?_, ?_⟩ (fun a => not_next_of_stage ?_) ?_
  · simp [idle]
  · simp [idle]
  · rw [State.view_stage, idle]
    trivial
  · simp [idle]

theorem Safe.exclusive (safe : Safe job state) : Exclusive state := by
  intro lock first second holdsFirst holdsSecond
  obtain ⟨main, asides, queue, -⟩ := safe.served lock
  exact Option.some.inj ((queue.head_of_holds holdsFirst).symm.trans
    (queue.head_of_holds holdsSecond))

/-- The flag as it is seen. -/
theorem flag_eq : state.flag lock me = true ↔ (state.view lock).Flag me := by
  unfold State.flag View.Flag
  rw [Option.any_eq_true]
  rfl

/-- The first of the queue owns the lock, or releases it, or is given it. -/
theorem Queue.owns_or_releases (queue : Queue (state.view lock) main asides)
    (head : main.head? = some me) :
    state.Owns lock me ∨ state.Releases lock me ∨
      state.Polls lock me ∧ .unlock ∈ (state.view lock).mail me := by
  have owner := queue.owner me head
  have active := queue.active_head head
  unfold View.Owner at owner
  unfold State.Owns State.Holds State.Polls State.Releases
  split at owner <;> rename_i stage <;> rw [State.view_stage] at stage
  · exact .inl (.inl ⟨active.1, stage⟩)
  · exact .inr (.inl (by rw [stage]; trivial))
  · exact .inr (.inl (by rw [stage]; trivial))
  · exact .inr (.inl (by rw [stage]; trivial))
  · exact .inr (.inl (by rw [stage]; trivial))
  · exact .inr (.inl (by rw [stage]; trivial))
  · by_cases flag : (state.view lock).Flag me
    · exact .inr (.inr ⟨stage, owner flag⟩)
    · exact .inl (.inr ⟨stage, Bool.eq_false_of_not_eq_true fun set =>
        flag (flag_eq.mp set)⟩)
  · exact owner.elim

/-- Nothing is on its way to a request where nothing is in flight. -/
theorem State.mail_nil (quiet : state.inFlight = []) : (state.view lock).mail me = [] := by
  cases item : state.reqTable me lock with
  | none => exact State.view_mail_none item
  | some req =>
      rw [State.view_mail item]
      unfold State.mailOf
      rw [quiet]
      rfl

theorem Safe.not_lost (safe : Safe job state) (lock : Lock) : ¬state.Lost lock := by
  rintro ⟨locked, noOwner, noReleaser, quiet, -⟩
  obtain ⟨main, asides, queue, -⟩ := safe.served lock
  rcases queue.word_eq with ⟨unset, -⟩ | ⟨last, isLast, -, -⟩
  · rw [unset] at locked
    cases locked
  · obtain ⟨me, head⟩ : ∃ me, main.head? = some me := by
      cases main with
      | nil => cases isLast
      | cons me rest => exact ⟨me, rfl⟩
    rcases queue.owns_or_releases head with owns | releases | ⟨-, member⟩
    · exact noOwner me owns
    · exact noReleaser me releases
    · rw [State.mail_nil quiet] at member
      cases member

/-- The lock calls return in the order of the swaps. -/
theorem Safe.fifo (safe : Safe job state) (compares : job.release = .compareAndSwap) (lock : Lock) :
    state.entries lock <+: state.swaps lock := by
  obtain ⟨main, asides, -, orderly⟩ := safe.served lock
  obtain ⟨-, -, gone, isSwaps, isEntries⟩ := orderly compares
  rw [isSwaps, isEntries, List.prefix_append_right_inj]
  cases main with
  | nil => exact List.nil_prefix
  | cons first rest =>
      by_cases polls : (state.view lock).stage first = some .polling
      · have outside : (state.view lock).inside (first :: rest) = [] :=
          List.filter_cons_of_neg fun apart => of_decide_eq_true apart polls
        rw [outside]
        exact List.nil_prefix
      · have inside : (state.view lock).inside (first :: rest) = [first] :=
          List.filter_cons_of_pos (decide_eq_true polls)
        rw [inside]
        exact List.cons_prefix_cons.mpr ⟨rfl, List.nil_prefix⟩

/-- One behind another in the queue is behind it where nothing is in flight. -/
theorem Queue.behind (queue : Queue (state.view lock) main asides)
    (noReleaser : ∀ me, ¬state.Releases lock me) (quiet : state.inFlight = []) {a b : Int}
    (adjoins : Adjoins (main :: asides) a b) : state.Behind lock a b := by
  obtain ⟨request, found, waits⟩ := queue.chained a b adjoins
  have idle := noReleaser b
  have naming : (state.view lock).naming a = state.naming lock a := rfl
  unfold State.Behind
  unfold State.Releases at idle
  rw [State.view_stage, naming] at waits
  split at waits
  · rename_i stage
    rw [stage]
    exact waits.1
  · rename_i stage
    rw [stage]
    exact waits.1
  · rename_i stage
    rw [stage]
    obtain ⟨⟨ofst, item, linked⟩, flag⟩ := waits
    rw [State.mail_nil quiet] at linked
    have image := linked.imagePart.resolve_left (by simp)
    have offset := linked.ofstPart.resolve_left (by simp)
    have done := linked.donePart.resolve_left (by simp)
    exact ⟨flag_eq.mpr flag, request, ofst, found, item, image.2, offset.2, done.2⟩
  · rename_i stage
    rw [stage] at idle
    exact absurd trivial idle
  · rename_i stage
    rw [stage] at idle
    exact absurd trivial idle
  · rename_i stage
    rw [stage] at idle
    exact absurd trivial idle
  · exact waits.elim

/-- The requests form one chain where nobody releases. -/
theorem Safe.chained (safe : Safe job state) (lock : Lock)
    (noReleaser : ∀ me, ¬state.Releases lock me) (quiet : state.inFlight = []) :
    ∃ chain, state.Chained lock chain := by
  obtain ⟨main, asides, queue, -⟩ := safe.served lock
  have alone : asides = [] := by
    refine List.eq_nil_iff_forall_not_mem.mpr fun chain inside => ?_
    obtain ⟨me, last, -, -, restores⟩ := queue.aside chain inside
    refine noReleaser me ?_
    unfold State.Releases
    rw [State.view_stage] at restores
    rw [restores]
    trivial
  subst alone
  have flat : [main].flatten = main := by simp
  have members := queue.members
  have nodup := queue.nodup
  rw [flat] at members nodup
  refine ⟨main, nodup, fun me => ?_, queue.word, fun me head => ?_, ?_⟩
  · rw [members me]
    refine ⟨fun active => ⟨active.1, active.2.1⟩, fun queued =>
      ⟨queued.1, queued.2, fun frees => noReleaser me ?_⟩⟩
    unfold State.Releases
    rw [State.view_stage] at frees
    rw [frees]
    trivial
  · rcases queue.owns_or_releases head with owns | releases | ⟨-, member⟩
    · exact owns
    · exact absurd releases (noReleaser me)
    · rw [State.mail_nil quiet] at member
      cases member
  · exact List.isChain_iff_forall_rel_of_append_cons_cons.mpr
      fun a b front rest split =>
        queue.behind noReleaser quiet ⟨main, by simp, front, rest, split⟩

/-! ## Only images of the job take part -/

/-- What is not an image of the job has no call and no request. -/
def Outside (state : State) (me : Int) : Prop :=
  state.call me = none ∧ state.reqTable me = fun _ => none

/-- A step of an image leaves the calls and the requests of the others. -/
theorem act_ne {other : Int} (apart : other ≠ me) (acted : act state me = some after) :
    after.call other = state.call other ∧ after.reqTable other = state.reqTable other := by
  have goOn : ∀ (state : State) (call : Option Call),
      (state.goOn me call).call other = state.call other :=
    fun state call => Function.update_of_ne apart _ _
  have dismiss : ∀ (state : State) (call : Call),
      (state.dismiss me call).call other = state.call other ∧
        (state.dismiss me call).reqTable other = state.reqTable other :=
    fun state call => ⟨Function.update_of_ne apart _ _, Function.update_of_ne apart _ _⟩
  have afterSwap : ∀ (state : State) (call : Call) (p : LockWord),
      (afterSwap state me call p).call other = state.call other ∧
        (afterSwap state me call p).reqTable other = state.reqTable other := by
    intro state call p
    unfold CoarrayLock.afterSwap
    split
    · exact ⟨goOn _ _, rfl⟩
    · exact ⟨goOn _ _, rfl⟩
  unfold act at acted
  obtain ⟨call, -, acted⟩ := Option.bind_eq_some_iff.mp acted
  obtain ⟨request, -, acted⟩ := Option.bind_eq_some_iff.mp acted
  split at acted
  · obtain rfl := Option.some.inj acted
    unfold trySwap swap
    dsimp only
    split
    · split
      · split
        · exact dismiss _ _
        · exact dismiss _ _
      · split
        · exact afterSwap _ _ _
        · exact afterSwap _ _ _
    · exact afterSwap _ _ _
  · obtain rfl := Option.some.inj acted
    exact ⟨goOn _ _, rfl⟩
  · obtain rfl := Option.some.inj acted
    exact ⟨goOn _ _, rfl⟩
  · split at acted
    · cases acted
    · obtain rfl := Option.some.inj acted
      exact ⟨goOn _ _, rfl⟩
  · obtain rfl := Option.some.inj acted
    unfold compare
    dsimp only
    split
    · split
      · exact dismiss _ _
      · exact dismiss _ _
    · split
      · exact ⟨goOn _ _, rfl⟩
      · exact ⟨goOn _ _, rfl⟩
  · obtain rfl := Option.some.inj acted
    unfold reset
    dsimp only
    split
    · exact dismiss _ _
    · exact ⟨goOn _ _, rfl⟩
  · obtain rfl := Option.some.inj acted
    exact ⟨goOn _ _, rfl⟩
  · split at acted
    · obtain rfl := Option.some.inj acted
      exact ⟨goOn _ _, rfl⟩
    · cases acted
  · split at acted
    · obtain rfl := Option.some.inj acted
      exact ⟨goOn _ _, rfl⟩
    · cases acted
  · rename_i u _
    obtain rfl := Option.some.inj acted
    cases u with
    | none | some => exact ⟨goOn _ _, rfl⟩
  · obtain rfl := Option.some.inj acted
    exact dismiss _ _

theorem outside_of_reached {condition : State → Move → Prop} (reached : Reached job condition state)
    (outside : ¬(1 ≤ me ∧ me ≤ job.numImages)) : Outside state me := by
  refine @Transition.Reachable.invariant _ _ _ (Outside · me) ?_ ?_ _ reached
  · rintro _ rfl
    exact ⟨rfl, rfl⟩
  · rintro before after ⟨idle, items⟩ ⟨move, enabled, -, stepped⟩
    cases move with
    | lock image lock req trial =>
        have apart : me ≠ image := by
          rintro rfl
          exact outside ⟨enabled.1, enabled.2.1⟩
        obtain rfl := Option.some.inj stepped
        unfold startLock
        split
        · exact ⟨idle, items⟩
        · exact ⟨(Function.update_of_ne apart _ _).trans idle,
            (Function.update_of_ne apart _ _).trans items⟩
    | unlock image lock =>
        have apart : me ≠ image := by
          rintro rfl
          exact outside ⟨enabled.1, enabled.2.1⟩
        unfold step startUnlock at stepped
        dsimp only at stepped
        split at stepped
        · exact Option.some.inj stepped ▸ ⟨idle, items⟩
        · obtain ⟨request, -, rfl⟩ := Option.map_eq_some_iff.mp stepped
          exact ⟨(Function.update_of_ne apart _ _).trans idle, items⟩
    | act image =>
        by_cases here : me = image
        · subst here
          unfold step act at stepped
          dsimp only at stepped
          rw [idle] at stepped
          cases stepped
        · obtain ⟨call, table⟩ := act_ne here stepped
          exact ⟨call.trans idle, table.trans items⟩
    | deliver index =>
        unfold step deliver at stepped
        obtain ⟨message, -, isAfter⟩ := Option.bind_eq_some_iff.mp stepped
        exact Option.some.inj isAfter ▸ ⟨idle, items⟩

/-! ## Two images and a lock -/

instance (job : Job) (state : State) : DecidablePred (Enabled job state)
  | .lock me _ req _ => inferInstanceAs (Decidable
      (1 ≤ me ∧ me ≤ job.numImages ∧ state.call me = none ∧ 0 ≤ req ∧ state.request me req = none))
  | .unlock me _ => inferInstanceAs (Decidable
      (1 ≤ me ∧ me ≤ job.numImages ∧ state.call me = none))
  | .act _ => .isTrue trivial
  | .deliver _ => .isTrue trivial

/-- A lock on the first image. -/
def firstLock : Lock where
  image := 1
  ofst := 0

/-- A job of two images. -/
def couple (release : Release) : Job where
  numImages := 2
  release := release

/-- A step that is enabled and does not start a release. -/
def lockStep (job : Job) (state : State) : Move → Option State
  | .lock me lock req trial =>
      if Enabled job state (.lock me lock req trial) ∧
          me < 2 ^ 19 ∧ req < 2 ^ 35 then
        step job state (.lock me lock req trial)
      else
        none
  | .act me =>
      match state.stageOn firstLock me with
      | some (.swapping _) | some (.marking _) | some (.linking _)
      | some .polling => act state me
      | _ => none
  | _ => none

theorem meets_of_lockStep {move : Move} (stepped : lockStep job state move = some after) :
    ∃ move, Enabled job state move ∧ Meets state move ∧ step job state move = some after := by
  unfold lockStep at stepped
  split at stepped
  · split at stepped
    · rename_i me lock req trial met
      exact ⟨_, met.1, met.2, stepped⟩
    · cases stepped
  · rename_i me
    refine ⟨.act me, trivial, ?_, ?_⟩
    · intro call request u called awaiting
      have waits : ∀ stage, state.stageOn firstLock me = some stage → stage = .awaitingImage u := by
        intro stage isStage
        unfold State.stageOn at isStage
        rw [called, Option.bind_some] at isStage
        split at isStage
        · exact (Option.some.inj isStage).symm.trans awaiting
        · cases isStage
      split at stepped
      · rename_i stage
        cases waits _ stage
      · rename_i stage
        cases waits _ stage
      · rename_i stage
        cases waits _ stage
      · rename_i stage
        cases waits _ stage
      · cases stepped
    · split at stepped
      · exact stepped
      · exact stepped
      · exact stepped
      · exact stepped
      · cases stepped
  · cases stepped

/-- A step that is enabled. -/
def enabledStep (job : Job) (state : State) (move : Move) : Option State :=
  if Enabled job state move then step job state move else none

theorem enabled_of_enabledStep {move : Move} (stepped : enabledStep job state move = some after) :
    ∃ move, Enabled job state move ∧ True ∧ step job state move = some after := by
  unfold enabledStep at stepped
  split at stepped
  · rename_i enabled
    exact ⟨move, enabled, trivial, stepped⟩
  · cases stepped

theorem reached_of_lockSteps {moves : List Move}
    (ran : Transition.runAll (lockStep job) initial moves = some state) :
    Reached job Meets state := by
  unfold Reached
  refine Transition.Reachable.runAll ?_ (.start rfl) ran
  exact fun before move after stepped => meets_of_lockStep stepped

theorem reached_of_enabledSteps {moves : List Move}
    (ran : Transition.runAll (enabledStep job) initial moves = some state) :
    Reached job (fun _ _ => True) state := by
  unfold Reached
  refine Transition.Reachable.runAll ?_ (.start rfl) ran
  exact fun before move after stepped => enabled_of_enabledStep stepped

/-- The first image takes the lock, and the second queues behind it. -/
def queueing : List Move :=
  [.lock 1 firstLock 8 false, .act 1, .lock 2 firstLock 16 false, .act 2,
    .act 2, .act 2]

/--
The first image unlocks, and its successor's write lands but for the offset.
-/
def torn (steps : Nat) : List Move :=
  queueing ++ .unlock 1 firstLock :: List.replicate steps (.act 1) ++
    [.deliver 0, .deliver 1, .act 1, .act 1, .act 1]

/-! ## Runs -/

/--
In every run whose steps meet the condition, one image at a time is between a
lock call and the unlock call, lock calls return in the order of the swaps, no
lock is lost to those that wait, and writes land in allocated requests.
-/
theorem lock_correct_of_meets (job : Job) (compares : job.release = .compareAndSwap) (state : State)
    (reached : Reached job Meets state) : Correct state := by
  have safe := safe_reached reached
  exact ⟨safe.exclusive, safe.fifo compares, safe.not_lost,
    fun message member => by
      obtain ⟨request, found⟩ := safe.allocated member
      rw [found]
      rfl⟩

/-- The first image holds the lock, and the second polls. -/
theorem lock_correct_of_meets_couple :
    ∃ state, Reached (couple .compareAndSwap) Meets state ∧
      state.Holds firstLock 1 ∧ state.Polls firstLock 2 ∧ Correct state := by
  have ran : ∃ state, Transition.runAll (lockStep (couple .compareAndSwap))
      initial queueing = some state ∧
        (state.reqTable 1 firstLock = some 8 ∧
          state.stageOn firstLock 1 = none) ∧
        state.stageOn firstLock 2 = some .polling :=
    ⟨_, rfl, ⟨rfl, rfl⟩, rfl⟩
  obtain ⟨state, ran, ⟨item, idle⟩, polls⟩ := ran
  have reached := reached_of_lockSteps ran
  exact ⟨state, reached, ⟨by rw [item]; exact Option.some_ne_none _, idle⟩,
    polls, lock_correct_of_meets _ rfl state reached⟩

/--
The release goes on before the offset of the successor has landed, and writes
to no request.
-/
theorem lock_correct_not_reached :
    ¬ ∀ (job : Job), job.release = .compareAndSwap → ∀ state : State,
      Reached job (fun _ _ => True) state → Correct state := by
  intro claim
  have ran : ∃ state, Transition.runAll (enabledStep (couple .compareAndSwap))
      initial (torn 1) = some state ∧
        ({ image := 2, ofst := 0, part := .unlock } : Message) ∈
          state.inFlight ∧ state.request 2 0 = none :=
    ⟨_, rfl, by decide, rfl⟩
  obtain ⟨state, ran, member, absent⟩ := ran
  have reached := reached_of_enabledSteps ran
  have allocated := (claim _ rfl state reached).allocated _ member
  rw [absent] at allocated
  cases allocated

/--
Under either release, and so by fetch-and-store alone, one image at a time is between a
lock call and the unlock call, and whenever nobody releases the requests form
one chain.
-/
theorem swapCorrect_of_meets (job : Job) (state : State)
    (reached : Reached job Meets state) : SwapCorrect state :=
  ⟨(safe_reached reached).exclusive, (safe_reached reached).chained⟩

/-- The first image holds the lock, and the second polls. -/
theorem swapCorrect_of_meets_couple :
    ∃ state, Reached (couple .swapOnly) Meets state ∧
      state.Holds firstLock 1 ∧ state.Polls firstLock 2 ∧
      SwapCorrect state := by
  have ran : ∃ state, Transition.runAll (lockStep (couple .swapOnly))
      initial queueing = some state ∧
        (state.reqTable 1 firstLock = some 8 ∧
          state.stageOn firstLock 1 = none) ∧
        state.stageOn firstLock 2 = some .polling :=
    ⟨_, rfl, ⟨rfl, rfl⟩, rfl⟩
  obtain ⟨state, ran, ⟨item, idle⟩, polls⟩ := ran
  have reached := reached_of_lockSteps ran
  exact ⟨state, reached, ⟨by rw [item]; exact Option.some_ne_none _, idle⟩,
    polls, swapCorrect_of_meets _ state reached⟩

/--
The release goes on before the offset of the successor has landed, and the
successor is left waiting at the head of the queue.
-/
theorem swapCorrect_not_reached :
    ¬ ∀ (job : Job), job.release = .swapOnly → ∀ state : State,
      Reached job (fun _ _ => True) state → SwapCorrect state := by
  intro claim
  have ran : ∃ state, Transition.runAll (enabledStep (couple .swapOnly))
      initial (torn 2 ++ [.act 1, .deliver 0, .deliver 0, .deliver 0]) =
        some state ∧
      (state.call 1 = none ∧ state.reqTable 1 firstLock = none) ∧
      (state.reqTable 2 firstLock = some 16 ∧
        state.stageOn firstLock 2 = some .polling ∧
        state.flag firstLock 2 = true) ∧ state.inFlight = [] :=
    ⟨_, rfl, ⟨rfl, rfl⟩, ⟨rfl, rfl, rfl⟩, rfl⟩
  obtain ⟨state, ran, ⟨idle, released⟩, ⟨item, polls, flag⟩, quiet⟩ := ran
  have reached := reached_of_enabledSteps ran
  have others : ∀ me, me ≠ 1 → me ≠ 2 → Outside state me :=
    fun me first second => outside_of_reached reached (by
      rintro ⟨low, high⟩
      change me ≤ 2 at high
      omega)
  have noReleaser : ∀ me, ¬state.Releases firstLock me := by
    intro me
    unfold State.Releases
    by_cases second : me = 2
    · rw [second, polls]
      exact id
    · have out : state.call me = none := by
        by_cases first : me = 1
        · rw [first, idle]
        · exact (others me first second).1
      rw [State.stageOn_none out]
      exact id
  obtain ⟨chain, chained⟩ := (claim _ rfl state reached).chained firstLock noReleaser quiet
  have inside : 2 ∈ chain := by
    refine (chained.all 2).mpr ⟨by rw [item]; exact Option.some_ne_none _, ?_⟩
    rw [polls]
    exact nofun
  obtain ⟨head, isHead⟩ : ∃ head, chain.head? = some head := by
    cases chain with
    | nil => cases inside
    | cons head rest => exact ⟨head, rfl⟩
  have queued := (chained.all head).mp (List.mem_of_mem_head? isHead)
  have isSecond : head = 2 := by
    by_contra second
    by_cases first : head = 1
    · rw [first] at queued
      exact queued.1 released
    · exact queued.1 (congrFun (others head first second).2 firstLock)
  subst isSecond
  rcases chained.owner 2 isHead with holds | ⟨-, unset⟩
  · exact absurd (holds.2.symm.trans polls) nofun
  · rw [flag] at unset
    cases unset

/-- A lock without requests is unset, and all who swapped for it have entered. -/
theorem unset_of_unused (job : Job) (reached : Reached job Meets state) (lock : Lock)
    (unused : ∀ me, state.reqTable me lock = none) :
    state.word lock = LockWord.unset ∧
      (job.release = .compareAndSwap → state.entries lock = state.swaps lock) := by
  obtain ⟨main, asides, queue, orderly⟩ := (safe_reached reached).served lock
  obtain rfl : main = [] := List.eq_nil_iff_forall_not_mem.mpr fun me member =>
    ((queue.members me).mp (List.mem_append_left _ member)).1 (unused me)
  refine ⟨queue.word, fun compares => ?_⟩
  obtain ⟨-, -, gone, isSwaps, isEntries⟩ := orderly compares
  rw [isSwaps, isEntries]
  rfl

/-- The first image has taken the lock and unlocked it. -/
theorem unset_of_unused_couple :
    ∃ state, Reached (couple .compareAndSwap) Meets state ∧
      state.word firstLock = LockWord.unset ∧ state.entries firstLock = [1] := by
  have ran : Transition.runAll (lockStep (couple .compareAndSwap)) initial
      [.lock 1 firstLock 8 false, .act 1] = some _ := rfl
  have released := (Transition.Reachable.tail (reached_of_lockSteps ran)
    ⟨.unlock 1 firstLock, by decide, trivial, rfl⟩).tail
      ⟨.act 1, trivial, fun _ _ _ called awaiting => (by cases called; cases awaiting), rfl⟩
  obtain ⟨unset, entries⟩ := unset_of_unused _ released firstLock fun me => by
    by_cases one : me = 1
    · subst one
      rfl
    · show Function.update (Function.update initial.reqTable 1 _) 1 _ me firstLock = none
      rw [Function.update_of_ne one, Function.update_of_ne one]
      rfl
  exact ⟨_, released, unset, entries rfl⟩

end OpenUH.Libcaf.CoarrayLock
