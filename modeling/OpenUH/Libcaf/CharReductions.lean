import Mathlib.Data.Nat.Log
import OpenUH.Foundation.MessagePassing

/-!
# Character reductions over MPI

`libcaf/collectives.c` reduces strings, for which MPI has no operation, with
sends and receives of its own.  `do_mpi_char_reduce` means to reduce along a
tree to image 1 and to pass the result on to the result image;
`do_mpi_char_allreduce` exchanges along the dimensions of a hypercube, and
lets the images left over hand in their strings before it.

Images count from one and MPI ranks from zero.  The calls of an image depend
on its number only, so the program of an image is the list of its calls.
-/

namespace OpenUH.Libcaf.CharReductions

open Foundation.MessagePassing

variable {α : Type}

/-! ## The source functions -/

/-- The arrays `source` and `work` of an image. -/
structure Buffers (α : Type) where
  source : α
  work : α

/-- A call to MPI. -/
abbrev MpiCall (α : Type) := Action (Buffers α) α

/-- `MPI_Send` of `source`. -/
def mpiSend (rank tag : Nat) : MpiCall α :=
  .send rank tag Buffers.source

/-- `MPI_Recv` into `source`. -/
def mpiRecv (rank tag : Nat) : MpiCall α :=
  .receive rank tag fun message buffers => { buffers with source := message }

/-- `perform_reduce` of `work` into `source`. -/
def performReduce (op : α → α → α) (buffers : Buffers α) : Buffers α :=
  { buffers with source := op buffers.source buffers.work }

/--
`MPI_Recv` into `work`, or `MPI_Wait` for one begun with `MPI_Irecv`, and the
reduction after it.
-/
def mpiRecvReduce (op : α → α → α) (rank tag : Nat) : MpiCall α :=
  .receive rank tag fun message buffers =>
    performReduce op { buffers with work := message }

/-- The loop that finds the greatest power of two, and its logarithm. -/
def greatestPower (p : Nat) : (turns q log2 : Nat) → Nat × Nat
  | 0, q, log2 => (q, log2)
  | turns + 1, q, log2 =>
      if 2 * q ≤ p then greatestPower p turns (2 * q) (log2 + 1) else (q, log2)

/-- The loops over the rounds, in which the step doubles. -/
def rounds (round : Nat → Nat → List (MpiCall α)) :
    (turns i step : Nat) → List (MpiCall α)
  | 0, _, _ => []
  | turns + 1, i, step => round i step ++ rounds round turns (i + 1) (step * 2)

/-- One round of `do_mpi_char_reduce`. -/
def reduceRound (op : α → α → α) (p me i step : Nat) : List (MpiCall α) :=
  if (me - 1) % (2 * step) < step then
    let partner := me + step
    if partner ≤ p then [mpiSend (partner - 1) i] else []
  else
    let partner := me - step
    if partner ≥ 1 then [mpiRecvReduce op (partner - 1) i] else []

/-- `do_mpi_char_reduce`. -/
def doMpiCharReduce (op : α → α → α) (p root me : Nat) : List (MpiCall α) :=
  let (q, log2) := greatestPower p p 1 0
  let log2P := if q < p then log2 + 1 else log2
  rounds (reduceRound op p me) log2P 1 1 ++
    if me = root + 1 then [mpiRecv 0 0]
    else if me = 1 then [mpiSend root 0]
    else []

/-- One round of `do_mpi_char_allreduce`. -/
def exchangeRound (op : α → α → α) (p me i step : Nat) : List (MpiCall α) :=
  if (me - 1) % (2 * step) < step then
    let partner := me + step
    if partner ≤ p then
      [mpiSend (partner - 1) i, mpiRecvReduce op (partner - 1) i]
    else []
  else
    let partner := me - step
    if partner ≥ 1 then
      [mpiSend (partner - 1) i, mpiRecvReduce op (partner - 1) i]
    else []

/-- `do_mpi_char_allreduce`. -/
def doMpiCharAllreduce (op : α → α → α) (p me : Nat) : List (MpiCall α) :=
  let (q, log2Q) := greatestPower p p 1 0
  let r := p - q
  let handIn : List (MpiCall α) :=
    if me > q then [mpiSend (me - q) 0]
    else if me ≤ r then [mpiRecvReduce op (me + q) 0]
    else []
  let exchange :=
    if me ≤ q then rounds (exchangeRound op p me) log2Q 1 1 else []
  let handOut : List (MpiCall α) :=
    if me ≤ r then [mpiSend (me + q) 0]
    else if me > q then [mpiRecv 0 0]
    else []
  handIn ++ exchange ++ handOut

/-- The programs of all images, by their rank. -/
def programs (p : Nat) (calls : Nat → List (MpiCall α)) (rank : Nat) : List (MpiCall α) :=
  if rank < p then calls (rank + 1) else []

/-! ## What a reduction is for -/

/-- The other rank of a call. -/
def peer : MpiCall α → Nat
  | .send receiver _ _ => receiver
  | .receive sender _ _ => sender

/-- The fold of the strings from a first one over some more. -/
def foldFrom (op : α → α → α) (strings : Nat → α) (first : Nat) : Nat → α
  | 0 => strings first
  | more + 1 => op (foldFrom op strings first more) (strings (first + more + 1))

/--
A reduction is right: it uses ranks that exist, every send has its receive,
nobody waits for ever, and in the end the images have what they should.
-/
structure Right (p : Nat) (calls : Nat → List (MpiCall α))
    (buffers : Nat → Buffers α) (has : Nat → α → Prop) : Prop where
  ranks : ∀ rank, ∀ call ∈ programs p calls rank, peer call < p
  matched : ∀ channel,
    sends (programs p calls) channel = receives (programs p calls) channel
  waits : ∀ network, Reached (programs p calls) buffers network → Stuck network → Done network
  result : ∀ network, Reached (programs p calls) buffers network →
    Done network → ∀ rank < p, has rank (network.parties rank).memory.source

/-- `do_mpi_char_reduce` leaves the fold of all strings in the result image. -/
def ReduceRight (op : α → α → α) (p root : Nat) (buffers : Nat → Buffers α) : Prop :=
  Right p (doMpiCharReduce op p root) buffers fun rank source =>
    rank = root → source = foldFrom op (fun rank => (buffers rank).source) 0 (p - 1)

/-- `do_mpi_char_allreduce` leaves the fold of all strings in every image. -/
def AllreduceRight (op : α → α → α) (p : Nat) (buffers : Nat → Buffers α) : Prop :=
  Right p (doMpiCharAllreduce op p) buffers fun _ source =>
    source = foldFrom op (fun rank => (buffers rank).source) 0 (p - 1)

/-! ## The rounds -/

/-- The loop ends at the greatest power of two. -/
theorem greatestPower_eq {p : Nat} (turns log2 : Nat)
    (fits : 2 ^ log2 ≤ p) (enough : Nat.log 2 p ≤ log2 + turns) :
    greatestPower p turns (2 ^ log2) log2 = (2 ^ Nat.log 2 p, Nat.log 2 p) := by
  have below : log2 ≤ Nat.log 2 p := Nat.le_log_of_pow_le (by decide) fits
  induction turns generalizing log2 with
  | zero =>
      have same : log2 = Nat.log 2 p := by omega
      rw [greatestPower, ← same]
  | succ turns ih =>
      rw [greatestPower, ← Nat.pow_succ']
      split
      next fits =>
          exact ih (log2 + 1) fits (by omega) (Nat.le_log_of_pow_le (by decide) fits)
      next large =>
          have same : Nat.log 2 p = log2 :=
            Nat.log_eq_of_pow_le_of_lt_pow fits (Nat.lt_of_not_le large)
          rw [same]

theorem greatestPower_start {p : Nat} (positive : 0 < p) :
    greatestPower p p 1 0 = (2 ^ Nat.log 2 p, Nat.log 2 p) :=
  greatestPower_eq p 0 positive (by
    rw [Nat.zero_add]
    exact (Nat.log_lt_self 2 positive.ne').le)

/-- The tag of a call. -/
def tagOf : MpiCall α → Nat
  | .send _ tag _ => tag
  | .receive _ tag _ => tag

/-- A round in which every call has the round's number for its tag. -/
def Tagged (round : Nat → Nat → List (MpiCall α)) : Prop :=
  ∀ i step, ∀ call ∈ round i step, tagOf call = i

section Rounds

variable {round : Nat → Nat → List (MpiCall α)}

/-- A property of the calls of each round is one of all their calls. -/
theorem forall_mem_rounds {property : MpiCall α → Prop} (turns i power : Nat)
    (holds : ∀ turn < turns, ∀ call ∈ round (i + turn) (2 ^ (power + turn)), property call) :
    ∀ call ∈ rounds round turns i (2 ^ power), property call := by
  induction turns generalizing i power with
  | zero => nofun
  | succ turns ih =>
      intro call member
      rw [rounds, ← Nat.pow_succ] at member
      rcases List.mem_append.1 member with first | later
      · exact holds 0 (Nat.succ_pos turns) call first
      · refine ih (i + 1) (power + 1) (fun turn less => ?_) call later
        have next := holds (turn + 1) (Nat.succ_lt_succ less)
        rwa [← Nat.add_assoc, Nat.add_right_comm i, ← Nat.add_assoc,
          Nat.add_right_comm power] at next

theorem tagOf_mem_rounds (tagged : Tagged round) (turns i power : Nat) :
    ∀ call ∈ rounds round turns i (2 ^ power), i ≤ tagOf call ∧ tagOf call < i + turns := by
  apply forall_mem_rounds
  intro turn less call member
  have tag := tagged _ _ call member
  omega

/-- The calls with one tag are those of one round. -/
theorem countP_rounds {tag : Nat} {test : MpiCall α → Bool} (tagged : Tagged round)
    (only : ∀ call, test call = true → tagOf call = tag) (turns i power : Nat) :
    (rounds round turns i (2 ^ power)).countP test =
      if i ≤ tag ∧ tag < i + turns then
        (round tag (2 ^ (power + (tag - i)))).countP test
      else 0 := by
  have none : ∀ i step, i ≠ tag → (round i step).countP test = 0 := by
    intro i step other
    rw [List.countP_eq_zero]
    intro call member passes
    exact other ((tagged i step call member).symm.trans (only call passes))
  induction turns generalizing i power with
  | zero =>
      rw [rounds, if_neg (by omega)]
      rfl
  | succ turns ih =>
      rw [rounds, List.countP_append, ← Nat.pow_succ, ih]
      by_cases here : i = tag
      · subst here
        rw [if_neg (by omega), if_pos (by omega), Nat.sub_self]
        rfl
      · rw [none i _ here, Nat.zero_add]
        by_cases later : i + 1 ≤ tag ∧ tag < i + 1 + turns
        · have power_ : power + 1 + (tag - (i + 1)) = power + (tag - i) := by
            omega
          rw [if_pos later, if_pos (by omega), power_]
        · rw [if_neg later, if_neg (by omega)]

/-- The rounds come in the order of their numbers. -/
theorem inOrder_rounds {order : Nat → Nat} (tagged : Tagged round)
    (each : ∀ i step, InOrder order (round i step)) (turns i power : Nat)
    (ordered : ∀ tag tag', i ≤ tag → tag < tag' → tag' < i + turns → order tag < order tag') :
    InOrder order (rounds round turns i (2 ^ power)) := by
  induction turns generalizing i power with
  | zero => exact List.Pairwise.nil
  | succ turns ih =>
      rw [rounds, ← Nat.pow_succ]
      refine List.pairwise_append.2 ⟨each _ _, ih (i + 1) (power + 1)
        (fun tag tag' least less below =>
          ordered tag tag' (by omega) less (by omega)), ?_⟩
      intro earlier first later member
      have firstTag := tagged _ _ earlier first
      have laterTag := tagOf_mem_rounds tagged turns (i + 1) (power + 1) later member
      have strict := ordered (tagOf earlier) (tagOf later) (by omega) (by omega) (by omega)
      cases earlier <;> cases later <;> simp only [Action.time, tagOf] at strict ⊢ <;>
        omega

end Rounds

section

variable (op : α → α → α) (p me : Nat)

include op p me

theorem tagged_reduceRound : Tagged (reduceRound op p me) := by
  intro i step call member
  simp only [reduceRound] at member
  split at member <;> split at member <;>
    simp only [List.mem_singleton, List.not_mem_nil] at member
  · rw [member]
    rfl
  · rw [member]
    rfl

theorem tagged_exchangeRound : Tagged (exchangeRound op p me) := by
  intro i step call member
  simp only [exchangeRound] at member
  split at member <;> split at member <;>
    simp only [List.mem_cons, List.not_mem_nil, or_false] at member
  · rcases member with rfl | rfl <;> rfl
  · rcases member with rfl | rfl <;> rfl

theorem inOrder_reduceRound (order : Nat → Nat) (i step : Nat) :
    InOrder order (reduceRound op p me i step) := by
  simp only [reduceRound]
  split <;> split <;> simp [InOrder]

theorem inOrder_exchangeRound (order : Nat → Nat) (i step : Nat) :
    InOrder order (exchangeRound op p me i step) := by
  simp only [exchangeRound]
  split <;> split <;> simp [InOrder, mpiSend, mpiRecvReduce, Action.time]

end

/-! ## Sends and receives that match -/

/-- The lower and the upper half of each block trade places. -/
theorem lower_add_iff {step : Nat} (positive : 0 < step) (rank : Nat) :
    (rank + step) % (2 * step) < step ↔ ¬ rank % (2 * step) < step := by
  have below : rank % (2 * step) < 2 * step := Nat.mod_lt _ (by omega)
  have same : (rank + step) % (2 * step) = (rank % (2 * step) + step) % (2 * step) := by
    rw [Nat.mod_add_mod]
  rw [same]
  by_cases lower : rank % (2 * step) < step
  · rw [Nat.mod_eq_of_lt (by omega)]
    omega
  · rw [Nat.mod_eq_sub_mod (by omega), Nat.mod_eq_of_lt (by omega)]
    omega

section Counts

variable {op : α → α → α} {p rank other tag step : Nat}

theorem countP_reduceRound_sends :
    (reduceRound op p (rank + 1) tag step).countP (Action.sendsTo other tag) =
      if rank % (2 * step) < step ∧ other = rank + step ∧ other < p then 1
      else 0 := by
  simp only [reduceRound, Nat.add_sub_cancel, mpiSend, mpiRecvReduce]
  split
  next lower =>
      split
      next inside =>
          simp only [List.countP_singleton, Action.sendsTo, lower, beq_self_eq_true,
            Bool.and_true, beq_iff_eq, true_and]
          exact if_congr (by omega) rfl rfl
      next outside =>
          rw [if_neg (by omega)]
          rfl
  next upper =>
      have none : ¬ (rank % (2 * step) < step ∧ other = rank + step ∧ other < p) :=
        fun here => upper here.1
      rw [if_neg none]
      split <;> rfl

theorem countP_reduceRound_receives :
    (reduceRound op p (rank + 1) tag step).countP
        (Action.receivesFrom other tag) =
      if ¬ rank % (2 * step) < step ∧ rank = other + step then 1 else 0 := by
  simp only [reduceRound, Nat.add_sub_cancel, mpiSend, mpiRecvReduce]
  split
  next lower =>
      have none : ¬ (¬ rank % (2 * step) < step ∧ rank = other + step) :=
        fun here => here.1 lower
      rw [if_neg none]
      split <;> rfl
  next upper =>
      have above : step ≤ rank := (Nat.le_of_not_lt upper).trans (Nat.mod_le _ _)
      rw [if_pos (by omega)]
      simp only [List.countP_singleton, Action.receivesFrom, upper,
        beq_self_eq_true, Bool.and_true, beq_iff_eq, not_false_eq_true, true_and]
      exact if_congr (by omega) rfl rfl

theorem countP_exchangeRound_sends :
    (exchangeRound op p (rank + 1) tag step).countP
        (Action.sendsTo other tag) =
      if rank % (2 * step) < step ∧ other = rank + step ∧ other < p ∨
        ¬ rank % (2 * step) < step ∧ rank = other + step then 1 else 0 := by
  simp only [exchangeRound, Nat.add_sub_cancel, mpiSend, mpiRecvReduce]
  split
  next lower =>
      split
      next inside =>
          simp only [List.countP_cons, List.countP_nil, Action.sendsTo, lower,
            beq_self_eq_true, Bool.and_true, beq_iff_eq, true_and, not_true_eq_false,
            false_and, or_false, Bool.false_eq_true, if_false, Nat.zero_add,
            Nat.add_zero]
          exact if_congr (by omega) rfl rfl
      next outside =>
          rw [if_neg (by omega)]
          rfl
  next upper =>
      have above : step ≤ rank := (Nat.le_of_not_lt upper).trans (Nat.mod_le _ _)
      rw [if_pos (by omega)]
      simp only [List.countP_cons, List.countP_nil, Action.sendsTo, upper,
        beq_self_eq_true, Bool.and_true, beq_iff_eq, not_false_eq_true, true_and,
        false_and, false_or, Bool.false_eq_true, if_false, Nat.zero_add,
        Nat.add_zero]
      exact if_congr (by omega) rfl rfl

theorem countP_exchangeRound_receives :
    (exchangeRound op p (rank + 1) tag step).countP
        (Action.receivesFrom other tag) =
      (exchangeRound op p (rank + 1) tag step).countP (Action.sendsTo other tag) := by
  simp only [exchangeRound, Nat.add_sub_cancel, mpiSend, mpiRecvReduce]
  split <;> split <;>
    simp [List.countP_cons, Action.sendsTo, Action.receivesFrom]

end Counts

theorem tagOf_of_sendsTo {other tag : Nat} (call : MpiCall α)
    (passes : call.sendsTo other tag = true) :
    tagOf call = tag := by
  cases call with
  | send receiver tag' payload =>
      simp only [Action.sendsTo, Bool.and_eq_true, beq_iff_eq] at passes
      exact passes.2
  | receive sender tag' store => exact Bool.noConfusion passes

theorem tagOf_of_receivesFrom {other tag : Nat} (call : MpiCall α)
    (passes : call.receivesFrom other tag = true) :
    tagOf call = tag := by
  cases call with
  | send receiver tag' payload => exact Bool.noConfusion passes
  | receive sender tag' store =>
      simp only [Action.receivesFrom, Bool.and_eq_true, beq_iff_eq] at passes
      exact passes.2

/-- The rounds of all images match if each round does. -/
theorem rounds_match {round : Nat → Nat → Nat → List (MpiCall α)} {p : Nat}
    (tagged : ∀ me, Tagged (round me))
    (matched : ∀ sender receiver tag step, 0 < step →
      (if sender < p then
        (round (sender + 1) tag step).countP (Action.sendsTo receiver tag)
      else 0) =
      if receiver < p then
        (round (receiver + 1) tag step).countP (Action.receivesFrom sender tag)
      else 0)
    (turns sender receiver tag : Nat) :
    (if sender < p then
      (rounds (round (sender + 1)) turns 1 1).countP (Action.sendsTo receiver tag)
    else 0) =
    if receiver < p then
      (rounds (round (receiver + 1)) turns 1 1).countP (Action.receivesFrom sender tag)
    else 0 := by
  have sent := countP_rounds (tagged (sender + 1)) (@tagOf_of_sendsTo α receiver tag) turns 1 0
  have received := countP_rounds (tagged (receiver + 1))
    (@tagOf_of_receivesFrom α sender tag) turns 1 0
  rw [Nat.pow_zero] at sent received
  rw [sent, received]
  by_cases within : 1 ≤ tag ∧ tag < 1 + turns
  · rw [if_pos within, if_pos within]
    exact matched sender receiver tag _ (Nat.pow_pos (by decide))
  · rw [if_neg within, if_neg within]
    simp

theorem reduceRound_matches (op : α → α → α) {p : Nat} (sender receiver tag step : Nat)
    (positive : 0 < step) :
    (if sender < p then
      (reduceRound op p (sender + 1) tag step).countP (Action.sendsTo receiver tag)
    else 0) =
    if receiver < p then
      (reduceRound op p (receiver + 1) tag step).countP (Action.receivesFrom sender tag)
    else 0 := by
  rw [countP_reduceRound_sends, countP_reduceRound_receives, ← ite_and, ← ite_and]
  apply if_congr _ rfl rfl
  have halves := lower_add_iff positive sender
  constructor
  · rintro ⟨inside, lower, rfl, within⟩
    exact ⟨within, fun low => halves.1 low lower, rfl⟩
  · rintro ⟨within, upper, rfl⟩
    refine ⟨by omega, ?_, rfl, within⟩
    by_contra high
    exact upper (halves.2 high)

theorem exchangeRound_matches (op : α → α → α) {p : Nat} (sender receiver tag step : Nat)
    (positive : 0 < step) :
    (if sender < p then
      (exchangeRound op p (sender + 1) tag step).countP (Action.sendsTo receiver tag)
    else 0) =
    if receiver < p then
      (exchangeRound op p (receiver + 1) tag step).countP (Action.receivesFrom sender tag)
    else 0 := by
  rw [countP_exchangeRound_receives, countP_exchangeRound_sends,
    countP_exchangeRound_sends, ← ite_and, ← ite_and]
  apply if_congr _ rfl rfl
  have halves := lower_add_iff positive sender
  have otherHalves := lower_add_iff positive receiver
  constructor
  · rintro ⟨inside, ⟨lower, rfl, within⟩ | ⟨upper, rfl⟩⟩
    · exact ⟨within, Or.inr ⟨fun low => halves.1 low lower, rfl⟩⟩
    · refine ⟨by omega, Or.inl ⟨?_, rfl, inside⟩⟩
      by_contra high
      exact upper (otherHalves.2 high)
  · rintro ⟨inside, ⟨lower, rfl, within⟩ | ⟨upper, rfl⟩⟩
    · exact ⟨within, Or.inr ⟨fun low => otherHalves.1 low lower, rfl⟩⟩
    · refine ⟨by omega, Or.inl ⟨?_, rfl, inside⟩⟩
      by_contra high
      exact upper (halves.2 high)

end OpenUH.Libcaf.CharReductions
