import OpenUH.Libcaf.CharReductions

/-!
# When character reductions are right

In `do_mpi_char_reduce` every round sends towards the higher image, so that
image 1 receives nothing and passes its own string on; and if image 1 is the
result image, it waits for a message from itself.  In
`do_mpi_char_allreduce` the images left over are addressed by their image
numbers in place of their ranks, so the last of them is out of range.
-/

namespace OpenUH.Libcaf.CharReductions

open Foundation.MessagePassing

variable {α : Type} {op : α → α → α} {p root : Nat} {buffers : Nat → Buffers α}

/-! ## The reduction to one image -/

/-- How many rounds `do_mpi_char_reduce` has. -/
def reduceTurns (p : Nat) : Nat :=
  if 2 ^ Nat.log 2 p < p then Nat.log 2 p + 1 else Nat.log 2 p

/-- What the images do after the rounds. -/
def handOver (root me : Nat) : List (MpiCall α) :=
  if me = root + 1 then [mpiRecv 0 0]
  else if me = 1 then [mpiSend root 0]
  else []

theorem doMpiCharReduce_eq (op : α → α → α) (positive : 0 < p) (root me : Nat) :
    doMpiCharReduce op p root me =
      rounds (reduceRound op p me) (reduceTurns p) 1 1 ++ handOver root me := by
  rw [doMpiCharReduce, greatestPower_start positive]
  rfl

variable {call : MpiCall α}

/-- The tags of the rounds are the numbers of the rounds. -/
theorem tagOf_mem_reduceRounds {me turns : Nat}
    (member : call ∈ rounds (reduceRound op p me) turns 1 1) :
    1 ≤ tagOf call ∧ tagOf call < 1 + turns :=
  tagOf_mem_rounds (tagged_reduceRound op p me) turns 1 0 call member

theorem tagOf_mem_handOver {me : Nat} (member : call ∈ handOver root me) :
    tagOf call = 0 := by
  rw [handOver] at member
  split at member
  · rw [List.mem_singleton.1 member]
    rfl
  · split at member
    · rw [List.mem_singleton.1 member]
      rfl
    · exact absurd member List.not_mem_nil

/-- Image 1 as the result image waits for a message from itself. -/
theorem not_reduceRight_zero (positive : 0 < p) : ¬ ReduceRight op p 0 buffers := by
  intro right
  have matched := right.matched ⟨0, 0, 0⟩
  have none : (rounds (reduceRound op p 1) (reduceTurns p) 1 1).countP
      (Action.sendsTo 0 0) = 0 := by
    rw [List.countP_eq_zero]
    intro call member passes
    have tag := tagOf_of_sendsTo call passes
    have least := (tagOf_mem_reduceRounds member).1
    omega
  simp only [sends, receives, programs, if_pos positive, Nat.zero_add,
    doMpiCharReduce_eq op positive, List.countP_append, none] at matched
  simp [handOver, mpiRecv, Action.sendsTo, Action.receivesFrom] at matched

theorem peer_mem_reduceRound {rank i step : Nat} (within : rank < p)
    (member : call ∈ reduceRound op p (rank + 1) i step) :
    peer call < p := by
  rw [reduceRound] at member
  split at member <;> dsimp only at member <;> split at member
  · rw [List.mem_singleton.1 member]
    show rank + 1 + step - 1 < p
    omega
  · exact absurd member List.not_mem_nil
  · rw [List.mem_singleton.1 member]
    show rank + 1 - step - 1 < p
    omega
  · exact absurd member List.not_mem_nil

/-- The ranks that `do_mpi_char_reduce` uses exist. -/
theorem reduce_ranks (inside : root < p) (rank : Nat) :
    ∀ call ∈ programs p (doMpiCharReduce op p root) rank, peer call < p := by
  intro call member
  rw [programs] at member
  split at member
  next within =>
      rw [doMpiCharReduce_eq op (by omega)] at member
      rcases List.mem_append.1 member with early | late
      · exact forall_mem_rounds (reduceTurns p) 1 0
          (fun _ _ _ => peer_mem_reduceRound within) call early
      · rw [handOver] at late
        split at late
        · rw [List.mem_singleton.1 late]
          exact Nat.zero_lt_of_lt inside
        · split at late
          · rw [List.mem_singleton.1 late]
            exact inside
          · exact absurd late List.not_mem_nil
  next => exact absurd member List.not_mem_nil

/-- The result image gets one message after the rounds, from image 1. -/
theorem handOver_matches (inside : root < p) (other : root ≠ 0) (sender receiver tag : Nat) :
    (if sender < p then
      (handOver (α := α) root (sender + 1)).countP (Action.sendsTo receiver tag)
    else 0) =
    if receiver < p then
      (handOver (α := α) root (receiver + 1)).countP (Action.receivesFrom sender tag)
    else 0 := by
  have sent : (handOver (α := α) root (sender + 1)).countP
      (Action.sendsTo receiver tag) =
        if sender = 0 ∧ root = receiver ∧ 0 = tag then 1 else 0 := by
    rw [handOver]
    split
    next isRoot =>
        rw [if_neg (by omega)]
        rfl
    next =>
        split
        next isFirst => simp [mpiSend, Action.sendsTo, Nat.succ.inj isFirst]
        next isOther =>
            rw [if_neg (by omega)]
            rfl
  have received : (handOver (α := α) root (receiver + 1)).countP
      (Action.receivesFrom sender tag) =
        if receiver = root ∧ 0 = sender ∧ 0 = tag then 1 else 0 := by
    rw [handOver]
    split
    next isRoot => simp [mpiRecv, Action.receivesFrom, Nat.succ.inj isRoot]
    next isOther =>
        have none : ¬ (receiver = root ∧ 0 = sender ∧ 0 = tag) :=
          fun here => isOther (congrArg (· + 1) here.1)
        rw [if_neg none]
        split <;> rfl
  rw [sent, received, ← ite_and, ← ite_and]
  apply if_congr _ rfl rfl
  constructor
  · rintro ⟨_, rfl, rfl, rfl⟩
    exact ⟨inside, rfl, rfl, rfl⟩
  · rintro ⟨_, rfl, rfl, rfl⟩
    exact ⟨by omega, rfl, rfl, rfl⟩

theorem reduce_matched (inside : root < p) (other : root ≠ 0) (channel : Channel) :
    sends (programs p (doMpiCharReduce op p root)) channel =
      receives (programs p (doMpiCharReduce op p root)) channel := by
  obtain ⟨sender, receiver, tag⟩ := channel
  have positive : 0 < p := Nat.zero_lt_of_lt inside
  have early := rounds_match (tagged_reduceRound op p) (reduceRound_matches op)
    (reduceTurns p) sender receiver tag
  have late := handOver_matches (α := α) inside other sender receiver tag
  have both : ∀ (test : MpiCall α → Bool) rank,
      (programs p (doMpiCharReduce op p root) rank).countP test =
        (if rank < p then
          (rounds (reduceRound op p (rank + 1)) (reduceTurns p) 1 1).countP test
        else 0) +
        if rank < p then (handOver root (rank + 1)).countP test else 0 := by
    intro test rank
    rw [programs]
    split
    next => rw [doMpiCharReduce_eq op positive, List.countP_append]
    next => rfl
  simp only [sends, receives, both]
  rw [early, late]

/-- The rounds come first, and the last message after them. -/
theorem reduce_inOrder (rank : Nat) :
    InOrder (fun tag => if tag = 0 then reduceTurns p + 1 else tag)
      (programs p (doMpiCharReduce op p root) rank) := by
  rw [programs]
  split
  next within =>
      rw [doMpiCharReduce_eq op (by omega)]
      refine List.pairwise_append.2 ⟨?_, ?_, ?_⟩
      · refine inOrder_rounds (tagged_reduceRound op p (rank + 1))
          (inOrder_reduceRound op p (rank + 1) _) (reduceTurns p) 1 0 ?_
        intro tag tag' least less below
        rw [if_neg (by omega), if_neg (by omega)]
        exact less
      · rw [handOver]
        split
        next => exact List.pairwise_singleton _ _
        next => split <;> simp
      · intro earlier first later last
        have early := tagOf_mem_reduceRounds first
        have late := tagOf_mem_handOver last
        cases earlier <;> cases later <;>
          simp only [tagOf] at early late <;>
          simp only [Action.time, late, if_true, if_neg (Nat.ne_of_gt early.1)] <;>
          omega
  next => exact List.Pairwise.nil

/-! ## What the images end with -/

/-- Programs without calls of tag 0 ensure nothing, and nothing is needed. -/
theorem ensures_of_tags {carries : Channel → α → Prop}
    (free : ∀ channel message, channel.tag ≠ 0 → carries channel message)
    (rank : Nat) (program : List (MpiCall α))
    (tags : ∀ call ∈ program, tagOf call ≠ 0) (memory : Buffers α) :
    Ensures carries rank (fun _ => True) program memory := by
  induction program generalizing memory with
  | nil => trivial
  | cons call program ih =>
      have rest := ih
        fun other member => tags other (List.mem_cons_of_mem _ member)
      have own := tags call List.mem_cons_self
      cases call with
      | send receiver tag payload => exact ⟨free _ _ own, rest memory⟩
      | receive sender tag store => exact fun message _ => rest _

/-- Sends leave the buffers as they are. -/
theorem ensures_of_sends {carries : Channel → α → Prop}
    (free : ∀ channel message, channel.tag ≠ 0 → carries channel message)
    (rank : Nat) (program : List (MpiCall α))
    (all : ∀ call ∈ program, tagOf call ≠ 0 ∧ ∃ other tag,
      call = mpiSend other tag) (memory : Buffers α) :
    Ensures carries rank (· = memory) program memory := by
  induction program with
  | nil => rfl
  | cons call program ih =>
      have rest := ih
        fun other member => all other (List.mem_cons_of_mem _ member)
      obtain ⟨own, other, tag, rfl⟩ := all call List.mem_cons_self
      exact ⟨free _ _ own, rest⟩

/-- Image 1 only sends in the rounds. -/
theorem sends_of_mem_reduceRound {i power : Nat}
    (member : call ∈ reduceRound op p 1 i (2 ^ power)) :
    ∃ other tag, call = mpiSend other tag := by
  rw [reduceRound, Nat.sub_self, Nat.zero_mod, if_pos (Nat.pow_pos (by decide))] at member
  dsimp only at member
  split at member
  · exact ⟨_, _, List.mem_singleton.1 member⟩
  · exact absurd member List.not_mem_nil

/-- The result image is left with the string of image 1. -/
theorem reduce_result (inside : root < p) {network : Network (Buffers α) α}
    (reached : Reached (programs p (doMpiCharReduce op p root)) buffers network)
    (done : Done network) :
    (network.parties root).memory.source = (buffers 0).source := by
  let carries : Channel → α → Prop := fun channel message =>
    channel.tag = 0 → message = (buffers 0).source
  let post : Nat → Buffers α → Prop := fun rank memory =>
    rank = root → memory.source = (buffers 0).source
  have free : ∀ channel message, channel.tag ≠ 0 → carries channel message :=
    fun _ _ tag none => absurd none tag
  suffices ensured : ∀ rank, Ensures carries rank (post rank)
      (programs p (doMpiCharReduce op p root) rank) (buffers rank) from
    post_of_done ensured reached done root rfl
  intro rank
  rw [programs]
  split
  next within =>
      rw [doMpiCharReduce_eq op (by omega)]
      have nonzero : ∀ call ∈ rounds (reduceRound op p (rank + 1))
          (reduceTurns p) 1 1, tagOf call ≠ 0 := fun call member =>
        Nat.ne_of_gt (tagOf_mem_reduceRounds member).1
      by_cases isRoot : rank = root
      · refine (ensures_of_tags free rank _ nonzero _).append fun memory _ => ?_
        rw [handOver, if_pos (by omega)]
        exact fun message carried _ => carried rfl
      · by_cases isFirst : rank = 0
        · subst isFirst
          have only : ∀ call ∈ rounds (reduceRound op p 1) (reduceTurns p) 1 1,
              ∃ other tag, call = mpiSend other tag :=
            forall_mem_rounds (reduceTurns p) 1 0 (fun _ _ _ => sends_of_mem_reduceRound)
          refine (ensures_of_sends free 0 _ (fun call member =>
            ⟨nonzero call member, only call member⟩) _).append ?_
          rintro memory rfl
          rw [handOver, if_neg (by omega), if_pos rfl]
          exact ⟨fun _ => rfl, fun same => absurd same isRoot⟩
        · refine (ensures_of_tags free rank _ nonzero _).append fun memory _ => ?_
          rw [handOver, if_neg (by omega), if_neg (by omega)]
          exact fun same => absurd same isRoot
  next outside => exact fun same => absurd (same ▸ inside) outside

/-- `do_mpi_char_reduce` hands on the string of image 1. -/
theorem reduceRight_iff (inside : root < p) :
    ReduceRight op p root buffers ↔
      root ≠ 0 ∧ foldFrom op (fun rank => (buffers rank).source) 0 (p - 1) =
        (buffers 0).source := by
  constructor
  · intro right
    have other : root ≠ 0 := by
      rintro rfl
      exact not_reduceRight_zero inside right
    have few : ∀ rank, programs p (doMpiCharReduce op p root) rank ≠ [] → rank < p := by
      intro rank some_
      by_contra outside
      exact some_ (if_neg outside)
    obtain ⟨last, reached, stuck⟩ : ∃ last,
        Reached (programs p (doMpiCharReduce op p root)) buffers last ∧ Stuck last :=
      exists_stuck few (.start rfl)
    have done := right.waits last reached stuck
    refine ⟨other, ?_⟩
    rw [← right.result last reached done root inside rfl]
    exact reduce_result inside reached done
  · rintro ⟨other, fold⟩
    exact {
      ranks := reduce_ranks inside
      matched := reduce_matched inside other
      waits := fun network => done_of_stuck reduce_inOrder
        (fun channel => (reduce_matched inside other channel).ge)
      result := by
        rintro network reached done rank within rfl
        rw [fold]
        exact reduce_result inside reached done }

/-! ## The reduction to all images -/

/-- Without images left over, all there is to do is to exchange. -/
theorem doMpiCharAllreduce_pow (op : α → α → α) {power rank : Nat} (within : rank < 2 ^ power) :
    doMpiCharAllreduce op (2 ^ power) (rank + 1) =
      rounds (exchangeRound op (2 ^ power) (rank + 1)) power 1 1 := by
  rw [doMpiCharAllreduce, greatestPower_start (Nat.pow_pos (by decide)), Nat.log_pow (by decide)]
  dsimp only
  rw [if_neg (by omega), if_neg (by omega), if_pos (by omega), if_neg (by omega),
    if_neg (by omega), List.append_nil, List.nil_append]

/-- The last image of those that receive names a rank that does not exist. -/
theorem pow_of_allreduceRight (positive : 0 < p) (right : AllreduceRight op p buffers) :
    p = 2 ^ Nat.log 2 p := by
  by_contra other
  have below : 2 ^ Nat.log 2 p ≤ p := Nat.pow_log_le_self 2 positive.ne'
  have above : p < 2 ^ (Nat.log 2 p + 1) := Nat.lt_pow_succ_log_self (by decide) p
  rw [Nat.pow_succ] at above
  obtain ⟨rank, isLast⟩ : ∃ rank, rank + 1 = p - 2 ^ Nat.log 2 p :=
    ⟨p - 2 ^ Nat.log 2 p - 1, by omega⟩
  have named : mpiRecvReduce op p 0 ∈ programs p (doMpiCharAllreduce op p) rank := by
    have address : rank + 1 + 2 ^ Nat.log 2 p = p := by omega
    rw [programs, if_pos (by omega), doMpiCharAllreduce, greatestPower_start positive]
    dsimp only
    rw [if_neg (by omega), if_pos (by omega), address]
    simp
  exact Nat.lt_irrefl p (right.ranks rank _ named)

theorem peer_mem_exchangeRound {rank i step : Nat} (within : rank < p)
    (member : call ∈ exchangeRound op p (rank + 1) i step) :
    peer call < p := by
  have near : rank + 1 + step ≤ p → rank + 1 + step - 1 < p := by omega
  have far : rank + 1 - step - 1 < p := by omega
  rw [exchangeRound] at member
  split at member <;> dsimp only at member <;> split at member <;>
    simp only [List.mem_cons, List.not_mem_nil, or_false] at member
  next inside => rcases member with rfl | rfl <;> exact near inside
  next => rcases member with rfl | rfl <;> exact far

section Exchange

variable {power : Nat}

theorem exchange_ranks (rank : Nat) :
    ∀ call ∈ programs (2 ^ power) (doMpiCharAllreduce op (2 ^ power)) rank,
      peer call < 2 ^ power := by
  intro call member
  rw [programs] at member
  split at member
  next within =>
      rw [doMpiCharAllreduce_pow op within] at member
      exact forall_mem_rounds power 1 0 (fun _ _ _ => peer_mem_exchangeRound within) call member
  next => exact absurd member List.not_mem_nil

theorem exchange_matched (channel : Channel) :
    sends (programs (2 ^ power) (doMpiCharAllreduce op (2 ^ power))) channel =
      receives (programs (2 ^ power) (doMpiCharAllreduce op (2 ^ power)))
        channel := by
  obtain ⟨sender, receiver, tag⟩ := channel
  have both : ∀ (test : MpiCall α → Bool) rank,
      (programs (2 ^ power) (doMpiCharAllreduce op (2 ^ power)) rank).countP
          test =
        if rank < 2 ^ power then
          (rounds (exchangeRound op (2 ^ power) (rank + 1)) power 1 1).countP test
        else 0 := by
    intro test rank
    rw [programs]
    split
    next within => rw [doMpiCharAllreduce_pow op within]
    next => rfl
  simp only [sends, receives, both]
  exact rounds_match (tagged_exchangeRound op (2 ^ power))
    (exchangeRound_matches op) power sender receiver tag

theorem exchange_inOrder (rank : Nat) :
    InOrder id (programs (2 ^ power) (doMpiCharAllreduce op (2 ^ power)) rank) := by
  rw [programs]
  split
  next within =>
      rw [doMpiCharAllreduce_pow op within]
      exact inOrder_rounds (tagged_exchangeRound op _ _)
        (inOrder_exchangeRound op _ _ _) power 1 0 fun _ _ _ less _ => less
  next => exact List.Pairwise.nil

end Exchange

/-! ## Folds over blocks -/

/-- The fold over a block of ranks, of a power of two, around a rank. -/
def blockFold (op : α → α → α) (strings : Nat → α) (power rank : Nat) : α :=
  foldFrom op strings (rank / 2 ^ power * 2 ^ power) (2 ^ power - 1)

section Folds

variable {strings : Nat → α}

theorem foldFrom_append (assoc : ∀ a b c, op (op a b) c = op a (op b c)) (first more most : Nat) :
    foldFrom op strings first (more + most + 1) =
      op (foldFrom op strings first more) (foldFrom op strings (first + more + 1) most) := by
  induction most with
  | zero => rfl
  | succ most ih =>
      have place : first + (more + most + 1) + 1 = first + more + 1 + most + 1 := by omega
      rw [← Nat.add_assoc more, foldFrom, ih, foldFrom, assoc, place]

theorem blockFold_zero (rank : Nat) : blockFold op strings 0 rank = strings rank := by
  simp [blockFold, foldFrom]

/-- The block of a rank in the lower half of a larger one. -/
theorem lower_block {step rank : Nat} (positive : 0 < step) (lower : rank % (2 * step) < step) :
    rank / (2 * step) * (2 * step) = rank / step * step ∧
      (rank + step) / step * step = rank / step * step + step ∧
      (rank + step) / (2 * step) = rank / (2 * step) := by
  have inner : rank % step = rank % (2 * step) := by
    rw [← Nat.mod_mod_of_dvd rank (Nat.dvd_mul_left step 2), Nat.mod_eq_of_lt lower]
  refine ⟨?_, ?_, ?_⟩
  · have whole := Nat.div_add_mod' rank (2 * step)
    have half := Nat.div_add_mod' rank step
    omega
  · rw [Nat.add_div_right _ positive, Nat.succ_mul]
  · have whole := Nat.div_add_mod rank (2 * step)
    have shifted : rank + step =
        (rank % (2 * step) + step) + 2 * step * (rank / (2 * step)) := by omega
    rw [shifted, Nat.add_mul_div_left _ _ (by omega), Nat.div_eq_of_lt (by omega), Nat.zero_add]

/-- A block is the fold of its halves. -/
theorem blockFold_lower (assoc : ∀ a b c, op (op a b) c = op a (op b c))
    {power rank : Nat} (lower : rank % (2 * 2 ^ power) < 2 ^ power) :
    op (blockFold op strings power rank)
        (blockFold op strings power (rank + 2 ^ power)) =
      blockFold op strings (power + 1) rank := by
  have positive : 0 < 2 ^ power := Nat.pow_pos (by decide)
  obtain ⟨start, next, -⟩ := lower_block positive lower
  have size : 2 * 2 ^ power - 1 = (2 ^ power - 1) + (2 ^ power - 1) + 1 := by
    omega
  have middle : rank / 2 ^ power * 2 ^ power + (2 ^ power - 1) + 1 =
      rank / 2 ^ power * 2 ^ power + 2 ^ power := by omega
  rw [blockFold, blockFold, blockFold, Nat.pow_succ', start, next, size,
    foldFrom_append assoc, middle]

/-- The partner in the upper half has the same block after the round. -/
theorem blockFold_upper (assoc : ∀ a b c, op (op a b) c = op a (op b c))
    (comm : ∀ a b, op a b = op b a)
    {power rank : Nat} (lower : rank % (2 * 2 ^ power) < 2 ^ power) :
    op (blockFold op strings power (rank + 2 ^ power))
        (blockFold op strings power rank) =
      blockFold op strings (power + 1) (rank + 2 ^ power) := by
  have positive : 0 < 2 ^ power := Nat.pow_pos (by decide)
  rw [comm, blockFold_lower assoc lower, blockFold, blockFold, Nat.pow_succ',
    (lower_block positive lower).2.2]

/-- The partner of a rank in a lower half exists. -/
theorem partner_inside {power more rank : Nat} (within : rank < 2 ^ (power + 1 + more))
    (lower : rank % (2 * 2 ^ power) < 2 ^ power) :
    rank + 1 + 2 ^ power ≤ 2 ^ (power + 1 + more) := by
  rw [Nat.pow_add, Nat.pow_succ'] at *
  have whole := Nat.div_add_mod rank (2 * 2 ^ power)
  have block : rank / (2 * 2 ^ power) < 2 ^ more := Nat.div_lt_of_lt_mul within
  have last := Nat.mul_le_mul_left (2 * 2 ^ power) (Nat.succ_le_of_lt block)
  rw [Nat.mul_succ] at last
  omega

/-- One round of the exchange folds two blocks into one. -/
theorem ensures_exchangeRound (assoc : ∀ a b c, op (op a b) c = op a (op b c))
    (comm : ∀ a b, op a b = op b a) {power more rank : Nat} (within : rank < 2 ^ (power + 1 + more))
    {memory : Buffers α} (folded : memory.source = blockFold op strings power rank) :
    Ensures (fun channel message =>
        message = blockFold op strings (channel.tag - 1) channel.sender)
      rank (fun memory =>
        memory.source = blockFold op strings (power + 1) rank)
      (exchangeRound op (2 ^ (power + 1 + more)) (rank + 1) (power + 1) (2 ^ power)) memory := by
  have positive : 0 < 2 ^ power := Nat.pow_pos (by decide)
  rw [exchangeRound, Nat.add_sub_cancel]
  split
  next lower =>
      dsimp only
      rw [if_pos (partner_inside within lower)]
      have partner : rank + 1 + 2 ^ power - 1 = rank + 2 ^ power := by omega
      rw [partner]
      refine ⟨folded, fun message carried => ?_⟩
      show op memory.source message = _
      rw [folded, carried]
      exact blockFold_lower assoc lower
  next upper =>
      obtain ⟨other, rfl⟩ : ∃ other, rank = other + 2 ^ power := ⟨rank - 2 ^ power, by
          have := (Nat.le_of_not_lt upper).trans (Nat.mod_le _ _)
          omega⟩
      have lower : other % (2 * 2 ^ power) < 2 ^ power := by
        by_contra high
        exact upper ((lower_add_iff positive other).2 high)
      dsimp only
      have partner : other + 2 ^ power + 1 - 2 ^ power - 1 = other := by omega
      rw [if_pos (by omega), partner]
      refine ⟨folded, fun message carried => ?_⟩
      show op memory.source message = _
      rw [folded, carried]
      exact blockFold_upper assoc comm lower

/-- The rounds fold ever larger blocks. -/
theorem ensures_exchange (assoc : ∀ a b c, op (op a b) c = op a (op b c))
    (comm : ∀ a b, op a b = op b a) {rank : Nat} (turns : Nat) :
    ∀ (power : Nat) (memory : Buffers α), rank < 2 ^ (power + turns) →
      memory.source = blockFold op strings power rank →
      Ensures (fun channel message =>
          message = blockFold op strings (channel.tag - 1) channel.sender)
        rank (fun memory =>
          memory.source = blockFold op strings (power + turns) rank)
        (rounds (exchangeRound op (2 ^ (power + turns)) (rank + 1)) turns
          (power + 1) (2 ^ power)) memory := by
  induction turns with
  | zero => exact fun power memory within folded => folded
  | succ turns ih =>
      intro power memory within folded
      have total : power + (turns + 1) = power + 1 + turns := by omega
      rw [total] at within ⊢
      rw [rounds, ← Nat.pow_succ]
      exact (ensures_exchangeRound assoc comm within folded).append
        fun memory folded => ih (power + 1) memory within folded

end Folds

/-- `do_mpi_char_allreduce` is right for powers of two only. -/
theorem allreduceRight_iff (assoc : ∀ a b c, op (op a b) c = op a (op b c))
    (comm : ∀ a b, op a b = op b a) (positive : 0 < p) :
    AllreduceRight op p buffers ↔ ∃ power, p = 2 ^ power := by
  constructor
  · intro right
    exact ⟨_, pow_of_allreduceRight positive right⟩
  · rintro ⟨power, rfl⟩
    exact {
      ranks := exchange_ranks
      matched := exchange_matched
      waits := fun network => done_of_stuck exchange_inOrder
        (fun channel => (exchange_matched channel).ge)
      result := by
        intro network reached done rank within
        let strings : Nat → α := fun rank => (buffers rank).source
        let post : Nat → Buffers α → Prop := fun rank memory =>
          rank < 2 ^ power → memory.source = blockFold op strings power rank
        have ensured : ∀ rank, Ensures (fun channel message =>
            message = blockFold op strings (channel.tag - 1) channel.sender)
            rank (post rank)
            (programs (2 ^ power) (doMpiCharAllreduce op (2 ^ power)) rank)
            (buffers rank) := by
          intro rank
          rw [programs]
          split
          next within =>
              have own : (buffers rank).source = blockFold op strings 0 rank :=
                (@blockFold_zero α op strings rank).symm
              have folded := ensures_exchange assoc comm power 0 (buffers rank)
                (by rwa [Nat.zero_add]) own
              rw [Nat.zero_add] at folded
              rw [doMpiCharAllreduce_pow op within]
              exact folded.mono fun memory folded _ => folded
          next outside => exact fun within => absurd within outside
        have last := post_of_done ensured reached done rank within
        rw [last, blockFold, Nat.div_eq_of_lt within, Nat.zero_mul] }

/--
Which of the two reductions are right, for a number of images, a result image
and their strings.
-/
theorem charReductions_right_iff (assoc : ∀ a b c, op (op a b) c = op a (op b c))
    (comm : ∀ a b, op a b = op b a) (inside : root < p) :
    (ReduceRight op p root buffers ↔
      root ≠ 0 ∧ foldFrom op (fun rank => (buffers rank).source) 0 (p - 1) =
        (buffers 0).source) ∧
    (AllreduceRight op p buffers ↔ ∃ power, p = 2 ^ power) :=
  ⟨reduceRight_iff inside,
    allreduceRight_iff assoc comm (Nat.zero_lt_of_lt inside)⟩

/-- Two images whose strings are the numbers 0 and 1, to be reduced to the greater. -/
def twoStrings (rank : Nat) : Buffers Nat where
  source := rank
  work := 0

theorem charReductions_right_iff_twoStrings :
    ¬ ReduceRight max 2 1 twoStrings ∧ AllreduceRight max 2 twoStrings := by
  have reductions : (ReduceRight max 2 1 twoStrings ↔ _) ∧ (AllreduceRight max 2 twoStrings ↔ _) :=
    charReductions_right_iff Nat.max_assoc Nat.max_comm (by decide)
  exact ⟨fun right => absurd (reductions.1.1 right).2 (by decide), reductions.2.2 ⟨1, rfl⟩⟩

/-- A single image waits for a message from itself. -/
theorem oneImage_not_right : ¬ (ReduceRight max 1 0 twoStrings ∧ AllreduceRight max 1 twoStrings) :=
  fun right => not_reduceRight_zero Nat.one_pos right.1

end OpenUH.Libcaf.CharReductions
