import OpenUH.Libcaf.SyncImages
import Mathlib.Tactic.Ring

/-!
# One direction of one pair of images

A link is all that the notifications of one image for one other depend on:
the sender's count and sense, the notifications in flight, the flag, and the
receiver's count.  What a link keeps invariant is proved for each of the four
ways to notify; the images only have to use their links in turns.
-/

namespace OpenUH.Libcaf.SyncImages

/-- The notifications of a sender for a receiver. -/
structure Link where
  notified : Nat
  sense : Int
  inFlight : List Notice
  value : Int
  val : Int
  check : Int
  taken : Nat
  restoring : Option Int

/-- The value a receiver is about to write back for a partner. -/
def Phase.restores (partner : Nat) : Phase → Option Int
  | .restoring current _ x => if current = partner then some x else none
  | _ => none

/-- The link from a sender to a receiver. -/
def State.link (state : State) (sender receiver : Nat) : Link where
  notified := (state.images sender).notified receiver
  sense := (state.images sender).syncSenses receiver
  inFlight := state.inFlight sender receiver
  value := (state.images receiver).value sender
  val := (state.images receiver).val sender
  check := (state.images receiver).check sender
  taken := (state.images receiver).taken sender
  restoring := (state.images receiver).phase.restores sender

namespace Link

variable {job : Job} {sender receiver : Nat} {link : Link}

/-- How many notifications have arrived. -/
def delivered (link : Link) : Nat :=
  link.notified - link.inFlight.length

/-- The sense of the notification of a number; the first has number 1. -/
def senseOf (number : Nat) : Int :=
  if number = 0 then 0 else ((number : Int) - 1) % 2 + 1

theorem senseOf_succ (number : Nat) : senseOf (number + 1) = senseOf number % 2 + 1 := by
  unfold senseOf
  split <;> split <;> omega

theorem senseOf_ne_zero {number : Nat} (positive : 0 < number) : senseOf number ≠ 0 := by
  unfold senseOf
  split <;> omega

theorem senseOf_succ_ne (number : Nat) (positive : 0 < number) :
    senseOf (number + 1) ≠ senseOf number := by
  unfold senseOf
  split <;> split <;> omega

/-! ## The accesses to a link -/

/-- The notice that is sent, and where it goes. -/
def notice (job : Job) (link : Link) : Notice :=
  match job.algorithm with
  | .counter => .add
  | .pingPong => .store 1
  | .senseRev => .store (link.sense % 2 + 1)
  | .csr => .store (link.sense % 2 + 1)

/-- The effect of a notice on `value`. -/
def apply (value : Int) : Notice → Int
  | .add => value + 1
  | .store stored => stored

/-- The sender notifies. -/
def notify (job : Job) (sender receiver : Nat) (link : Link) : Link :=
  { link with
    notified := link.notified + 1
    sense :=
      if job.usesSense sender receiver then link.sense % 2 + 1 else link.sense
    val :=
      if job.countsBytes sender receiver then
        toChar (link.val + 1)
      else
        link.val
    value :=
      if job.countsBytes sender receiver then
        link.value
      else if job.direct sender receiver then
        apply link.value (link.notice job)
      else
        link.value
    inFlight :=
      if job.countsBytes sender receiver then
        link.inFlight
      else if job.direct sender receiver then
        link.inFlight
      else
        link.inFlight ++ [link.notice job] }

/-- A notification lands. -/
def land (link : Link) (index : Nat) (notice : Notice) : Link :=
  { link with
    value := apply link.value notice
    inFlight := link.inFlight.eraseIdx index }

/-- The receiver takes a notification. -/
def take (job : Job) (sender receiver : Nat) (link : Link) : Link :=
  { link with
    taken := link.taken + 1
    value :=
      if job.countsBytes sender receiver then
        link.value
      else if job.usesSense sender receiver then
        0
      else
        link.value - 1
    check :=
      if job.countsBytes sender receiver then
        toChar (link.check + 1)
      else
        link.check }

/-- The receiver found the sense of the next notification. -/
def hold (link : Link) (x : Int) : Link :=
  { link with restoring := some x }

/-- The receiver writes it back. -/
def restore (link : Link) (x : Int) : Link :=
  { link with value := x, restoring := none }

/-! ## The invariant of a link -/

/-- How the flag stands to the counts. -/
structure Good (job : Job) (sender receiver : Nat) (link : Link) : Prop where
  fits : link.inFlight.length ≤ link.notified
  behind : link.taken ≤ link.delivered
  direct : job.direct sender receiver = true → link.inFlight = []
  bytes : job.countsBytes sender receiver = true →
    link.val = toChar link.notified ∧ link.check = toChar link.taken
  adds : job.algorithm = .counter →
    link.value = (link.delivered : Int) - link.taken ∧ ∀ notice ∈ link.inFlight, notice = .add
  tokens : job.algorithm = .pingPong →
    link.value = (link.delivered : Int) - link.taken ∧ ∀ notice ∈ link.inFlight, notice = .store 1
  senses : job.usesSense sender receiver = true →
    link.sense = senseOf link.notified ∧
      link.inFlight =
        (List.range' (link.delivered + 1) link.inFlight.length).map
          (fun number => .store (senseOf number)) ∧
      match link.restoring with
      | none =>
          link.value =
            if link.delivered = link.taken then 0 else senseOf link.delivered
      | some x =>
          link.value = 0 ∧ link.delivered = link.taken + 1 ∧
            x = senseOf link.delivered ∧ link.inFlight = []

theorem direct_of_countsBytes (bytes : job.countsBytes sender receiver = true) :
    job.direct sender receiver = true := by
  unfold Job.countsBytes at bytes
  unfold Job.direct
  simp only [Bool.and_eq_true, decide_eq_true_eq] at bytes
  simp [bytes.1, bytes.2]

theorem not_countsBytes_of_usesSense (senses : job.usesSense sender receiver = true) :
    job.countsBytes sender receiver = false := by
  unfold Job.usesSense at senses
  unfold Job.countsBytes
  cases algorithm : job.algorithm <;> simp_all

theorem toChar_succ (value : Int) : toChar (toChar value + 1) = toChar (value + 1) := by
  unfold toChar
  omega

/-- Two bytes differ where the counts differ by less than the range. -/
theorem toChar_ne_iff {taken notified : Nat}
    (behind : taken ≤ notified) (ahead : notified ≤ taken + 255) :
    toChar notified ≠ toChar taken ↔ taken < notified := by
  unfold toChar
  omega

theorem countsBytes_of_algorithm (other : job.algorithm ≠ .csr) (sender receiver : Nat) :
    job.countsBytes sender receiver = false := by
  simp [Job.countsBytes, other]

section

variable (good : Good job sender receiver link)

include good

theorem delivered_notify :
    (link.notify job sender receiver).delivered =
      if job.direct sender receiver then
        link.delivered + 1
      else
        link.delivered := by
  unfold delivered notify
  cases bytes : job.countsBytes sender receiver with
  | true =>
      have direct := direct_of_countsBytes bytes
      simp [direct, good.direct direct]
  | false =>
      cases direct : job.direct sender receiver with
      | true => simp [good.direct direct]
      | false => simp

theorem Good.fits_eq :
    link.delivered + link.inFlight.length = link.notified :=
  Nat.sub_add_cancel good.fits

/-- The next sense goes behind those in flight. -/
theorem good_notify_senses (free : link.restoring ≠ none → link.notified ≤ link.taken)
    (senses : job.usesSense sender receiver = true) :
    let after := link.notify job sender receiver
    after.sense = senseOf after.notified ∧
      after.inFlight =
        (List.range' (after.delivered + 1) after.inFlight.length).map
          (fun number => .store (senseOf number)) ∧
      match after.restoring with
      | none =>
          after.value =
            if after.delivered = after.taken then 0
            else senseOf after.delivered
      | some x =>
          after.value = 0 ∧ after.delivered = after.taken + 1 ∧
            x = senseOf after.delivered ∧ after.inFlight = [] := by
  have arrived := delivered_notify good
  have total := good.fits_eq
  have behind := good.behind
  obtain ⟨sense, order, flag⟩ := good.senses senses
  have bytes := not_countsBytes_of_usesSense senses
  have notice : link.notice job = .store (senseOf (link.notified + 1)) := by
    rw [senseOf_succ, ← sense]
    unfold Link.notice
    cases algorithm : job.algorithm with
    | counter | pingPong => simp [Job.usesSense, algorithm] at senses
    | senseRev => rfl
    | csr => rfl
  have idle : link.restoring = none := by
    by_contra held
    obtain ⟨x, holds⟩ := Option.ne_none_iff_exists'.mp held
    rw [holds] at flag
    have late := free held
    omega
  rw [idle] at flag
  dsimp only
  refine ⟨?_, ?_, ?_⟩
  · simp [notify, senses, sense, senseOf_succ]
  · rw [arrived]
    cases direct : job.direct sender receiver with
    | true => simp [notify, bytes, direct, good.direct direct]
    | false =>
        simp only [notify, bytes, direct, Bool.false_eq_true, if_false,
          List.length_append, List.length_singleton]
        rw [List.range'_concat, List.map_append, ← order, notice,
          show link.delivered + 1 + 1 * link.inFlight.length = link.notified + 1 by omega]
        rfl
  · have kept : (link.notify job sender receiver).restoring = none := idle
    rw [kept, arrived]
    dsimp only
    change _ = if _ = link.taken then 0 else _
    cases direct : job.direct sender receiver with
    | true =>
        have empty := good.direct direct
        rw [empty, List.length_nil] at total
        simp only [notify, bytes, direct, notice, apply, if_true, Bool.false_eq_true, if_false]
        rw [if_neg (by omega), ← total]
    | false =>
        simp only [notify, bytes, direct, Bool.false_eq_true, if_false]
        exact flag

theorem good_notify (free : link.restoring ≠ none → link.notified ≤ link.taken) :
    Good job sender receiver (link.notify job sender receiver) := by
  have arrived := delivered_notify good
  have total := good.fits_eq
  refine ⟨?_, ?_, ?_, ?_, ?_, ?_, ?_⟩
  · simp only [notify]
    split
    · omega
    · split
      · omega
      · simp
        omega
  · have behind := good.behind
    rw [arrived]
    change link.taken ≤ _
    split <;> omega
  · intro direct
    simp only [notify, direct, if_true, ite_self]
    exact good.direct direct
  · intro bytes
    obtain ⟨val, check⟩ := good.bytes bytes
    simp only [notify, bytes, if_true, val, check, toChar_succ]
    exact ⟨by push_cast; rfl, trivial⟩
  · intro counter
    obtain ⟨value, notices⟩ := good.adds counter
    have bytes := countsBytes_of_algorithm
      (show job.algorithm ≠ .csr by simp [counter]) sender receiver
    rw [arrived]
    simp only [notify, bytes, notice, counter, apply]
    cases direct : job.direct sender receiver with
    | true =>
        refine ⟨?_, by simp [good.direct direct]⟩
        simp [value]
        ring
    | false =>
        refine ⟨by simp [value], ?_⟩
        simpa [or_imp, forall_and] using notices
  · intro pingPong
    obtain ⟨value, notices⟩ := good.tokens pingPong
    have bytes := countsBytes_of_algorithm
      (show job.algorithm ≠ .csr by simp [pingPong]) sender receiver
    have direct : job.direct sender receiver = false := by
      simp [Job.direct, pingPong]
    rw [arrived]
    simp only [notify, bytes, notice, pingPong, direct]
    refine ⟨by simp [value], ?_⟩
    simpa [or_imp, forall_and] using notices
  · intro senses
    exact good_notify_senses good free senses

/-! ## Landing -/

theorem delivered_land {index : Nat} {notice : Notice}
    (found : link.inFlight[index]? = some notice) :
    (link.land index notice).delivered = link.delivered + 1 ∧
      (link.land index notice).inFlight.length + 1 = link.inFlight.length := by
  obtain ⟨inside, -⟩ := List.getElem?_eq_some_iff.mp found
  have total := good.fits_eq
  have shorter : (link.inFlight.eraseIdx index).length + 1 = link.inFlight.length := by
    rw [List.length_eraseIdx_of_lt inside]
    omega
  refine ⟨?_, shorter⟩
  change link.notified - (link.inFlight.eraseIdx index).length = _
  omega

/-- A notification that lands is one more to take. -/
theorem good_land {index : Nat} {notice : Notice} (found : link.inFlight[index]? = some notice)
    (inOrder : job.usesSense sender receiver = true → index = 0)
    (turns : job.algorithm = .pingPong → link.notified ≤ link.taken + 1) :
    Good job sender receiver (link.land index notice) := by
  obtain ⟨arrived, shorter⟩ := delivered_land good found
  have total := good.fits_eq
  have present : notice ∈ link.inFlight := List.mem_of_getElem? found
  have remaining : ∀ other ∈ (link.land index notice).inFlight, other ∈ link.inFlight :=
    fun other => List.mem_of_mem_eraseIdx
  refine ⟨?_, ?_, ?_, good.bytes, ?_, ?_, ?_⟩
  · change _ ≤ link.notified
    omega
  · have behind := good.behind
    rw [arrived]
    change link.taken ≤ _
    omega
  · intro direct
    rw [good.direct direct] at present
    cases present
  · intro counter
    obtain ⟨value, notices⟩ := good.adds counter
    refine ⟨?_, fun other member => notices other (remaining other member)⟩
    rw [arrived]
    change apply link.value notice = ((link.delivered + 1 : Nat) : Int) - link.taken
    rw [notices notice present, apply, value]
    push_cast
    ring
  · intro pingPong
    obtain ⟨value, notices⟩ := good.tokens pingPong
    refine ⟨?_, fun other member => notices other (remaining other member)⟩
    have behind := good.behind
    have turns := turns pingPong
    rw [arrived]
    change apply link.value notice = ((link.delivered + 1 : Nat) : Int) - link.taken
    rw [notices notice present, apply]
    push_cast
    omega
  · intro senses
    obtain ⟨sense, order, flag⟩ := good.senses senses
    obtain rfl := inOrder senses
    obtain ⟨rest, split⟩ : ∃ rest, link.inFlight = notice :: rest := by
      cases equation : link.inFlight with
      | nil => rw [equation] at present; cases present
      | cons first rest =>
          rw [equation] at found
          exact ⟨rest, by rw [Option.some.inj found]⟩
    rw [split, List.length_cons, List.range'_succ, List.map_cons, List.cons.injEq] at order
    have landed : (link.land 0 notice).inFlight = rest := by
      simp [land, split]
    refine ⟨sense, ?_, ?_⟩
    · rw [landed, arrived]
      exact order.2
    · change match link.restoring with
        | none => _
        | some x => _
      cases restoring : link.restoring with
      | some x =>
          rw [restoring] at flag
          rw [flag.2.2.2] at present
          cases present
      | none =>
          have behind := good.behind
          dsimp only
          rw [arrived]
          change apply link.value notice =
            if _ = link.taken then 0 else _
          rw [if_neg (by omega), order.1]
          rfl

end

/-! ## Testing and taking -/

/-- What the receiver tests. -/
def shows (job : Job) (sender receiver : Nat) (link : Link) : Bool :=
  if job.countsBytes sender receiver then
    link.val ≠ link.check
  else
    match job.algorithm with
    | .pingPong => link.value = 1
    | _ => link.value ≠ 0

theorem Good.delivered_le (good : Good job sender receiver link) :
    link.delivered ≤ link.notified := by
  have total := good.fits_eq
  omega

/-- The test succeeds exactly when a notification is there to take. -/
theorem shows_iff (good : Good job sender receiver link) (idle : link.restoring = none)
    (ahead : link.notified ≤ link.taken + 2)
    (turns : job.algorithm = .pingPong → link.notified ≤ link.taken + 1) :
    link.shows job sender receiver = true ↔ link.taken < link.delivered := by
  have behind := good.behind
  have arrived := good.delivered_le
  unfold shows
  cases bytes : job.countsBytes sender receiver with
  | true =>
      have empty := good.direct (direct_of_countsBytes bytes)
      have all : link.delivered = link.notified := by
        simp [delivered, empty]
      obtain ⟨val, check⟩ := good.bytes bytes
      rw [if_pos rfl, val, check, decide_eq_true_eq, all]
      exact toChar_ne_iff (by omega) (by omega)
  | false =>
      rw [if_neg Bool.false_ne_true]
      have senses : job.usesSense sender receiver = true →
          (link.value ≠ 0 ↔ link.taken < link.delivered) := by
        intro senses
        have flag := (good.senses senses).2.2
        rw [idle] at flag
        dsimp only at flag
        rw [flag]
        split
        · omega
        · have positive : 0 < link.delivered := by omega
          have nonzero := senseOf_ne_zero positive
          constructor
          · intro _
            omega
          · exact fun _ => nonzero
      cases algorithm : job.algorithm with
      | counter =>
          have value := (good.adds algorithm).1
          simp only [decide_eq_true_eq]
          omega
      | pingPong =>
          have value := (good.tokens algorithm).1
          have turns := turns algorithm
          simp only [decide_eq_true_eq]
          omega
      | senseRev =>
          simpa using senses (by simp [Job.usesSense, algorithm])
      | csr =>
          have apart : job.sameNode sender receiver = false := by
            simpa [Job.countsBytes, algorithm] using bytes
          simpa using senses (by simp [Job.usesSense, algorithm, apart])

theorem delivered_take (job : Job) (sender receiver : Nat) (link : Link) :
    (link.take job sender receiver).delivered = link.delivered :=
  rfl

section

variable (good : Good job sender receiver link)

include good

theorem good_take_common
    (ready : link.taken < link.delivered) (other : job.algorithm ≠ .pingPong) {after : Link}
    (same : after = link.take job sender receiver ∨
      ∃ x, after = (link.take job sender receiver).hold x)
    (senses : job.usesSense sender receiver = true →
      match after.restoring with
      | none =>
          after.value =
            if after.delivered = after.taken then 0
            else senseOf after.delivered
      | some x =>
          after.value = 0 ∧ after.delivered = after.taken + 1 ∧
            x = senseOf after.delivered ∧ after.inFlight = []) :
    Good job sender receiver after := by
  have fields : after.notified = link.notified ∧
      after.sense = link.sense ∧ after.inFlight = link.inFlight ∧
      after.delivered = link.delivered ∧
      after.val = link.val ∧ after.taken = link.taken + 1 ∧
      after.value = (link.take job sender receiver).value ∧
      after.check = (link.take job sender receiver).check := by
    rcases same with rfl | ⟨x, rfl⟩ <;>
      exact ⟨rfl, rfl, rfl, rfl, rfl, rfl, rfl, rfl⟩
  obtain ⟨notified, sense, inFlight, arrived, val, taken, value, check⟩ := fields
  refine ⟨?_, ?_, ?_, ?_, ?_, ?_, ?_⟩
  · rw [inFlight, notified]
    exact good.fits
  · rw [arrived, taken]
    exact ready
  · rw [inFlight]
    exact good.direct
  · intro bytes
    have before := good.bytes bytes
    rw [val, notified, check, taken]
    refine ⟨before.1, ?_⟩
    simp only [take, bytes, if_true, before.2, toChar_succ]
    push_cast
    rfl
  · intro counter
    obtain ⟨flag, notices⟩ := good.adds counter
    rw [inFlight, value, arrived, taken]
    refine ⟨?_, notices⟩
    have bytes := countsBytes_of_algorithm
      (show job.algorithm ≠ .csr by simp [counter]) sender receiver
    have sense : job.usesSense sender receiver = false := by
      simp [Job.usesSense, counter]
    simp only [take, bytes, sense, Bool.false_eq_true, if_false, flag]
    push_cast
    ring
  · exact fun pingPong => absurd pingPong other
  · intro uses
    refine ⟨?_, ?_, senses uses⟩
    · rw [sense, notified]
      exact (good.senses uses).1
    · rw [inFlight, arrived]
      exact (good.senses uses).2.1

/-- Taking the notification the receiver expects. -/
theorem good_take (idle : link.restoring = none)
    (ready : link.taken < link.delivered) (ahead : link.notified ≤ link.taken + 2)
    (other : job.algorithm ≠ .pingPong)
    (expected : job.usesSense sender receiver = true → link.value = senseOf (link.taken + 1)) :
    Good job sender receiver (link.take job sender receiver) := by
  refine good_take_common good ready other (.inl rfl) fun senses => ?_
  have kept : (link.take job sender receiver).restoring = none := idle
  have arrived := good.delivered_le
  have flag := (good.senses senses).2.2
  rw [idle] at flag
  dsimp only at flag
  rw [if_neg (by omega), expected senses] at flag
  have next : link.delivered = link.taken + 1 := by
    by_contra beyond
    have later : link.delivered = link.taken + 1 + 1 := by omega
    rw [later] at flag
    exact senseOf_succ_ne (link.taken + 1) (by omega) flag.symm
  rw [kept]
  dsimp only
  have bytes := not_countsBytes_of_usesSense senses
  rw [delivered_take, next]
  change (link.take job sender receiver).value =
    if link.taken + 1 = link.taken + 1 then 0 else _
  rw [if_pos rfl]
  simp [take, bytes, senses]

/-- Finding the next notification instead, which is held to be written back. -/
theorem good_hold (idle : link.restoring = none)
    (ready : link.taken < link.delivered) (ahead : link.notified ≤ link.taken + 2)
    (senses : job.usesSense sender receiver = true)
    (unexpected : link.value ≠ senseOf (link.taken + 1)) :
    Good job sender receiver ((link.take job sender receiver).hold link.value) := by
  have other : job.algorithm ≠ .pingPong := by
    intro pingPong
    simp [Job.usesSense, pingPong] at senses
  refine good_take_common good ready other (.inr ⟨_, rfl⟩) fun _ => ?_
  have total := good.fits_eq
  have flag := (good.senses senses).2.2
  rw [idle] at flag
  dsimp only at flag
  rw [if_neg (by omega)] at flag
  have next : link.delivered ≠ link.taken + 1 := by
    intro next
    rw [next] at flag
    exact unexpected flag
  have bytes := not_countsBytes_of_usesSense senses
  have empty : link.inFlight = [] := List.length_eq_zero_iff.mp (by omega)
  refine ⟨?_, ?_, flag, empty⟩
  · simp [hold, take, bytes, senses]
  · change link.delivered = link.taken + 1 + 1
    omega

/-- The held notification is back in the flag. -/
theorem good_restore {x : Int}
    (held : link.restoring = some x) (senses : job.usesSense sender receiver = true) :
    Good job sender receiver (link.restore x) := by
  obtain ⟨sense, order, flag⟩ := good.senses senses
  rw [held] at flag
  have other : job.algorithm ≠ .pingPong ∧ job.algorithm ≠ .counter := by
    constructor <;>
      · intro algorithm
        simp [Job.usesSense, algorithm] at senses
  refine ⟨good.fits, good.behind, good.direct, good.bytes,
    fun counter => absurd counter other.2,
    fun pingPong => absurd pingPong other.1, fun _ => ⟨sense, order, ?_⟩⟩
  change x = if link.delivered = link.taken then 0 else senseOf link.delivered
  rw [if_neg (by omega)]
  exact flag.2.2.1

/-- Ping-pong clears the flag it found set. -/
theorem good_clear (pingPong : job.algorithm = .pingPong)
    (ready : link.taken < link.delivered) (turns : link.notified ≤ link.taken + 1) :
    Good job sender receiver
      { link with taken := link.taken + 1, value := 0 } := by
  have arrived := good.delivered_le
  have bytes := countsBytes_of_algorithm
    (show job.algorithm ≠ .csr by simp [pingPong]) sender receiver
  refine ⟨good.fits, ready, good.direct, ?_, ?_, ?_, ?_⟩
  · intro counts
    rw [bytes] at counts
    cases counts
  · intro counter
    rw [pingPong] at counter
    cases counter
  · intro _
    refine ⟨?_, (good.tokens pingPong).2⟩
    change (0 : Int) = (link.delivered : Int) - ((link.taken + 1 : Nat) : Int)
    omega
  · intro senses
    simp [Job.usesSense, pingPong] at senses

end

end Link

end OpenUH.Libcaf.SyncImages
