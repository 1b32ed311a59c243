import OpenUH.Foundation.Transition

/-!
# Programs that send and receive

Each party carries out a list of actions: it sends a message made from its
memory, or waits for one and stores it.  Messages between two parties with
one tag arrive in the order they were sent, and no order holds otherwise.

What every interleaving has in common is settled by looking at the lists of
the parties alone.  The messages on the way are those sent and not yet
received.  Where every message waited for is sent, and the parties use the
tags in one order, nobody waits for ever.  And what each party ends with
follows from what the channels are known to carry.
-/

namespace OpenUH.Foundation.MessagePassing

open Foundation.Transition
open Function (update_of_ne update_self)

universe u v

/-- What a party does next. -/
inductive Action (Memory : Type u) (Message : Type v) where
  | send (receiver tag : Nat) (payload : Memory → Message)
  | receive (sender tag : Nat) (store : Message → Memory → Memory)

/-- A channel carries the messages of two parties with one tag. -/
structure Channel where
  sender : Nat
  receiver : Nat
  tag : Nat
  deriving DecidableEq

/-- A party, with the actions it has left. -/
structure Party (Memory : Type u) (Message : Type v) where
  memory : Memory
  actions : List (Action Memory Message)

/-- The parties, and the messages on the way. -/
structure Network (Memory : Type u) (Message : Type v) where
  parties : Nat → Party Memory Message
  messages : Channel → List Message

variable {Memory : Type u} {Message : Type v}

/-- One party sends, or receives a message that arrived. -/
inductive Step : Network Memory Message → Network Memory Message → Prop
  | send {network : Network Memory Message} {party : Nat} {memory : Memory}
      {receiver tag : Nat} {payload : Memory → Message}
      {rest : List (Action Memory Message)}
      (next : network.parties party =
        ⟨memory, .send receiver tag payload :: rest⟩) :
      Step network
        { parties := Function.update network.parties party ⟨memory, rest⟩
          messages := Function.update network.messages ⟨party, receiver, tag⟩
            (network.messages ⟨party, receiver, tag⟩ ++ [payload memory]) }
  | receive {network : Network Memory Message} {party : Nat} {memory : Memory}
      {sender tag : Nat} {store : Message → Memory → Memory}
      {rest : List (Action Memory Message)} {message : Message}
      {more : List Message}
      (next : network.parties party = ⟨memory, .receive sender tag store :: rest⟩)
      (waiting : network.messages ⟨sender, party, tag⟩ = message :: more) :
      Step network
        { parties := Function.update network.parties party
            ⟨store message memory, rest⟩
          messages := Function.update network.messages ⟨sender, party, tag⟩
            more }

/-- The network before anything is sent. -/
def start (programs : Nat → List (Action Memory Message))
    (memories : Nat → Memory) : Network Memory Message where
  parties party := ⟨memories party, programs party⟩
  messages _ := []

/-- The networks reached from the start. -/
abbrev Reached (programs : Nat → List (Action Memory Message))
    (memories : Nat → Memory) : Network Memory Message → Prop :=
  Reachable (· = start programs memories) Step

/-- Nobody has anything left to do. -/
def Done (network : Network Memory Message) : Prop :=
  ∀ party, (network.parties party).actions = []

/-- No party can go on. -/
def Stuck (network : Network Memory Message) : Prop :=
  ∀ after, ¬ Step network after

/-! ## Counting sends and receives -/

/-- An action sends to a party with a tag. -/
def Action.sendsTo (receiver tag : Nat) : Action Memory Message → Bool
  | .send receiver' tag' _ => receiver' == receiver && tag' == tag
  | .receive _ _ _ => false

/-- An action receives from a party with a tag. -/
def Action.receivesFrom (sender tag : Nat) : Action Memory Message → Bool
  | .send _ _ _ => false
  | .receive sender' tag' _ => sender' == sender && tag' == tag

/-- How often programs send on a channel. -/
def sends (programs : Nat → List (Action Memory Message)) (channel : Channel) : Nat :=
  (programs channel.sender).countP (Action.sendsTo channel.receiver channel.tag)

/-- How often programs receive from a channel. -/
def receives (programs : Nat → List (Action Memory Message)) (channel : Channel) : Nat :=
  (programs channel.receiver).countP
    (Action.receivesFrom channel.sender channel.tag)

/-- The actions that the parties have left. -/
def Network.left (network : Network Memory Message) (party : Nat) : List (Action Memory Message) :=
  (network.parties party).actions

theorem left_start (programs : Nat → List (Action Memory Message)) (memories : Nat → Memory) :
    (start programs memories).left = programs :=
  rfl

theorem left_update (network : Network Memory Message) (party : Nat)
    (memory : Memory) (rest : List (Action Memory Message)) (messages : Channel → List Message) :
    Network.left
        ⟨Function.update network.parties party ⟨memory, rest⟩, messages⟩ =
      Function.update network.left party rest := by
  ext1 other
  by_cases same : other = party
  · subst same
    simp [Network.left]
  · simp [Network.left, update_of_ne same]

/-- Counting in one list of several, when the first action of it is done. -/
theorem countP_update {left : Nat → List (Action Memory Message)} {party : Nat}
    {action : Action Memory Message} {rest : List (Action Memory Message)}
    (next : left party = action :: rest) (other : Nat) (test : Action Memory Message → Bool) :
    (left other).countP test =
      (Function.update left party rest other).countP test +
        if other = party ∧ test action = true then 1 else 0 := by
  by_cases same : other = party
  · subst same
    rw [next, update_self, List.countP_cons]
    simp
  · simp [same]

/--
The messages on the way are those sent and not received: what is left to
send and to receive makes up for the difference.
-/
def Balanced (programs : Nat → List (Action Memory Message))
    (network : Network Memory Message) : Prop :=
  ∀ channel, (network.messages channel).length + sends network.left channel +
      receives programs channel =
    sends programs channel + receives network.left channel

theorem Balanced.step {programs : Nat → List (Action Memory Message)}
    {network after : Network Memory Message} (balanced : Balanced programs network)
    (moved : Step network after) :
    Balanced programs after := by
  intro channel
  have before := balanced channel
  cases moved with
  | @send party memory receiver tag payload rest next =>
      have first : network.left party = .send receiver tag payload :: rest := by
        rw [Network.left, next]
      have sent := countP_update first channel.sender (Action.sendsTo channel.receiver channel.tag)
      have kept := countP_update first channel.receiver
        (Action.receivesFrom channel.sender channel.tag)
      rw [left_update]
      simp only [sends, receives, Action.sendsTo, Action.receivesFrom,
        Bool.false_eq_true, and_false, if_false, Nat.add_zero,
        Bool.and_eq_true, beq_iff_eq] at sent kept before ⊢
      by_cases here : channel = ⟨party, receiver, tag⟩
      · subst here
        rw [if_pos ⟨rfl, rfl, rfl⟩] at sent
        rw [update_self, List.length_append, List.length_singleton]
        omega
      · have away : ¬ (channel.sender = party ∧ receiver = channel.receiver ∧
            tag = channel.tag) := by
          rintro ⟨rfl, rfl, rfl⟩
          exact here rfl
        rw [if_neg away] at sent
        rw [update_of_ne here]
        omega
  | @receive party memory sender tag store rest message more next waiting =>
      have first : network.left party = .receive sender tag store :: rest := by
        rw [Network.left, next]
      have sent := countP_update first channel.sender (Action.sendsTo channel.receiver channel.tag)
      have kept := countP_update first channel.receiver
        (Action.receivesFrom channel.sender channel.tag)
      rw [left_update]
      simp only [sends, receives, Action.sendsTo, Action.receivesFrom,
        Bool.false_eq_true, and_false, if_false, Nat.add_zero,
        Bool.and_eq_true, beq_iff_eq] at sent kept before ⊢
      by_cases here : channel = ⟨sender, party, tag⟩
      · subst here
        rw [if_pos ⟨rfl, rfl, rfl⟩] at kept
        rw [waiting, List.length_cons] at before
        rw [update_self]
        omega
      · have away : ¬ (channel.receiver = party ∧ sender = channel.sender ∧ tag = channel.tag) := by
          rintro ⟨rfl, rfl, rfl⟩
          exact here rfl
        rw [if_neg away] at kept
        rw [update_of_ne here]
        omega

theorem balanced_start (programs : Nat → List (Action Memory Message)) (memories : Nat → Memory) :
    Balanced programs (start programs memories) := by
  intro channel
  rw [left_start]
  simp [start]

section Reached

variable {programs : Nat → List (Action Memory Message)}
variable {memories : Nat → Memory}
variable {network : Network Memory Message}

theorem balanced (reached : Reached programs memories network) : Balanced programs network :=
  reached.invariant (fun _ isStart => isStart ▸ balanced_start _ _) (fun _ _ => Balanced.step)

/-! ## Nobody waits for ever -/

/-- A party has some last actions of its program left. -/
theorem left_suffix (reached : Reached programs memories network) (party : Nat) :
    network.left party <:+ programs party := by
  induction reached with
  | start isStart =>
      subst isStart
      exact List.suffix_refl _
  | @tail before after _ moved ih =>
      have shorter : after.left party <:+ before.left party := by
        cases moved with
        | @send other memory receiver tag payload rest next =>
            rw [left_update]
            by_cases same : party = other
            · subst same
              rw [update_self, Network.left, next]
              exact List.suffix_cons _ _
            · rw [update_of_ne same]
        | @receive other memory sender tag store rest message more next waiting =>
            rw [left_update]
            by_cases same : party = other
            · subst same
              rw [update_self, Network.left, next]
              exact List.suffix_cons _ _
            · rw [update_of_ne same]
      exact shorter.trans ih

/-- When an action happens, if the tags are used in some order. -/
def Action.time (order : Nat → Nat) : Action Memory Message → Nat
  | .send _ tag _ => 2 * order tag
  | .receive _ tag _ => 2 * order tag + 1

/-- A program uses its tags in an order, and sends before it receives. -/
def InOrder (order : Nat → Nat) (program : List (Action Memory Message)) : Prop :=
  program.Pairwise fun earlier later => earlier.time order ≤ later.time order

/-- The first action left is the earliest. -/
theorem time_le_of_mem {order : Nat → Nat} {program rest : List (Action Memory Message)}
    {first action : Action Memory Message} (inOrder : InOrder order program)
    (suffix : first :: rest <:+ program) (member : action ∈ first :: rest) :
    first.time order ≤ action.time order := by
  rcases List.mem_cons.1 member with rfl | later
  · exact Nat.le_refl _
  · exact (List.pairwise_cons.1 (inOrder.sublist suffix.sublist)).1 action later

/-- A party that is stuck waits for a message. -/
theorem receive_of_stuck {party : Nat} {action : Action Memory Message}
    {rest : List (Action Memory Message)} (stuck : Stuck network)
    (first : network.left party = action :: rest) :
    ∃ sender tag store, action = .receive sender tag store ∧
      network.messages ⟨sender, party, tag⟩ = [] := by
  have next : network.parties party = ⟨(network.parties party).memory, action :: rest⟩ := by
    rw [← first, Network.left]
  cases action with
  | send receiver tag payload => exact absurd (Step.send next) (stuck _)
  | receive sender tag store =>
      refine ⟨sender, tag, store, rfl, ?_⟩
      cases waiting : network.messages ⟨sender, party, tag⟩ with
      | nil => rfl
      | cons message more => exact absurd (Step.receive next waiting) (stuck _)

/--
Where every message waited for is sent, and all parties use the tags in one
order, a network that is stuck is done.
-/
theorem done_of_stuck {order : Nat → Nat} (inOrder : ∀ party, InOrder order (programs party))
    (sent : ∀ channel, receives programs channel ≤ sends programs channel)
    (reached : Reached programs memories network) (stuck : Stuck network) :
    Done network := by
  by_contra busy
  have some_ : ∃ time party action rest,
      network.left party = action :: rest ∧ action.time order = time := by
    simp only [Done, not_forall] at busy
    obtain ⟨party, left⟩ := busy
    obtain ⟨action, rest, first⟩ := List.exists_cons_of_ne_nil left
    exact ⟨_, party, action, rest, first, rfl⟩
  classical
  obtain ⟨party, action, rest, first, time⟩ := Nat.find_spec some_
  obtain ⟨sender, tag, store, rfl, empty⟩ := receive_of_stuck stuck first
  have balance := balanced reached ⟨sender, party, tag⟩
  have waited : 0 < receives network.left ⟨sender, party, tag⟩ := by
    rw [receives, List.countP_pos_iff]
    exact ⟨_, first ▸ List.mem_cons_self, by simp [Action.receivesFrom]⟩
  have unsent : 0 < sends network.left ⟨sender, party, tag⟩ := by
    have enough := sent ⟨sender, party, tag⟩
    rw [empty, List.length_nil] at balance
    omega
  rw [sends, List.countP_pos_iff] at unsent
  obtain ⟨late, member, matches_⟩ := unsent
  obtain ⟨head, others, senderFirst⟩ := List.exists_cons_of_ne_nil (List.ne_nil_of_mem member)
  have suffix := left_suffix reached sender
  dsimp only at member senderFirst
  rw [senderFirst] at suffix member
  have early := time_le_of_mem (inOrder sender) suffix member
  have least : Nat.find some_ ≤ head.time order :=
    Nat.find_min' some_ ⟨sender, head, others, senderFirst, rfl⟩
  cases late with
  | send receiver tag' payload =>
      simp only [Action.sendsTo, Bool.and_eq_true, beq_iff_eq] at matches_
      have received : 2 * order tag + 1 = Nat.find some_ := time
      have sentAt : head.time order ≤ 2 * order tag' := early
      rw [matches_.2] at sentAt
      omega
  | receive sender' tag' store' => exact Bool.noConfusion matches_

/-! ## Every run ends -/

/-- The number of actions left to the first parties. -/
def work (size : Nat) (network : Network Memory Message) : Nat :=
  ∑ party ∈ Finset.range size, (network.left party).length

/-- Each step does one action. -/
theorem work_lt_of_step {size : Nat} {after : Network Memory Message}
    (inside : ∀ party, network.left party ≠ [] → party < size) (moved : Step network after) :
    work size after < work size network := by
  have shorter : ∀ party memory rest action messages,
      network.left party = action :: rest →
        work size ⟨Function.update network.parties party ⟨memory, rest⟩,
          messages⟩ < work size network := by
    intro party memory rest action messages first
    apply Finset.sum_lt_sum
    · intro other _
      rw [left_update]
      by_cases same : other = party
      · subst same
        rw [update_self, first]
        exact Nat.le_succ _
      · rw [update_of_ne same]
    · refine ⟨party, Finset.mem_range.2 (inside party ?_), ?_⟩
      · rw [first]
        exact List.cons_ne_nil _ _
      · rw [left_update, update_self, first]
        exact Nat.lt_succ_self _
  cases moved with
  | send next => exact shorter _ _ _ _ _ (by rw [Network.left, next])
  | receive next waiting => exact shorter _ _ _ _ _ (by rw [Network.left, next])

/-- Finitely many parties run until they are stuck. -/
theorem exists_stuck {size : Nat} (inside : ∀ party, programs party ≠ [] → party < size)
    (reached : Reached programs memories network) :
    ∃ last, Reached programs memories last ∧ Stuck last := by
  refine reached.exists_terminal (work size) fun before after reached moved => ?_
  refine work_lt_of_step (fun party left => inside party ?_) moved
  intro none
  have suffix := left_suffix reached party
  rw [none] at suffix
  exact left (List.suffix_nil.1 suffix)

/-! ## What the parties end with -/

/-- What a program ends with, by what its channels carry. -/
def Ensures (carries : Channel → Message → Prop) (party : Nat) (post : Memory → Prop) :
    List (Action Memory Message) → Memory → Prop
  | [], memory => post memory
  | .send receiver tag payload :: rest, memory =>
      carries ⟨party, receiver, tag⟩ (payload memory) ∧ Ensures carries party post rest memory
  | .receive sender tag store :: rest, memory =>
      ∀ message, carries ⟨sender, party, tag⟩ message →
        Ensures carries party post rest (store message memory)

variable {carries : Channel → Message → Prop}

theorem Ensures.mono {party : Nat}
    {post weaker : Memory → Prop} {program : List (Action Memory Message)} {memory : Memory}
    (ensures : Ensures carries party post program memory)
    (follows : ∀ memory, post memory → weaker memory) :
    Ensures carries party weaker program memory := by
  induction program generalizing memory with
  | nil => exact follows memory ensures
  | cons action program ih =>
      cases action with
      | send receiver tag payload =>
          exact ⟨ensures.1, ih ensures.2⟩
      | receive sender tag store =>
          exact fun message carried => ih (ensures message carried)

/-- What is ensured of two programs, one after the other. -/
theorem Ensures.append {party : Nat}
    {middle post : Memory → Prop} {first second : List (Action Memory Message)} {memory : Memory}
    (before : Ensures carries party middle first memory)
    (after : ∀ memory, middle memory → Ensures carries party post second memory) :
    Ensures carries party post (first ++ second) memory := by
  induction first generalizing memory with
  | nil => exact after memory before
  | cons action first ih =>
      cases action with
      | send receiver tag payload =>
          exact ⟨before.1, ih before.2⟩
      | receive sender tag store =>
          exact fun message carried => ih (before message carried)

/-- The parties keep to what the channels carry. -/
structure Keeps (carries : Channel → Message → Prop)
    (post : Nat → Memory → Prop) (network : Network Memory Message) : Prop where
  ensures : ∀ party, Ensures carries party (post party)
    (network.parties party).actions (network.parties party).memory
  messages : ∀ channel, ∀ message ∈ network.messages channel,
    carries channel message

theorem Keeps.step {post : Nat → Memory → Prop}
    {after : Network Memory Message} (keeps : Keeps carries post network)
    (moved : Step network after) :
    Keeps carries post after := by
  cases moved with
  | @send party memory receiver tag payload rest next =>
      have own := keeps.ensures party
      rw [next] at own
      refine ⟨fun other => ?_, fun channel message member => ?_⟩
      · dsimp only
        by_cases same : other = party
        · subst same
          rw [update_self]
          exact own.2
        · rw [update_of_ne same]
          exact keeps.ensures other
      · dsimp only at member
        by_cases here : channel = ⟨party, receiver, tag⟩
        · subst here
          rw [update_self] at member
          rcases List.mem_append.1 member with old | new
          · exact keeps.messages _ _ old
          · rw [List.mem_singleton.1 new]
            exact own.1
        · rw [update_of_ne here] at member
          exact keeps.messages _ _ member
  | @receive party memory sender tag store rest message more next waiting =>
      have own := keeps.ensures party
      rw [next] at own
      have arrived := keeps.messages ⟨sender, party, tag⟩
      rw [waiting] at arrived
      refine ⟨fun other => ?_, fun channel message' member => ?_⟩
      · dsimp only
        by_cases same : other = party
        · subst same
          rw [update_self]
          exact own message (arrived message List.mem_cons_self)
        · rw [update_of_ne same]
          exact keeps.ensures other
      · dsimp only at member
        by_cases here : channel = ⟨sender, party, tag⟩
        · subst here
          rw [update_self] at member
          exact arrived _ (List.mem_cons_of_mem _ member)
        · rw [update_of_ne here] at member
          exact keeps.messages _ _ member

/-- What is ensured of each program alone holds when all are done. -/
theorem post_of_done {post : Nat → Memory → Prop}
    (ensured : ∀ party, Ensures carries party (post party) (programs party) (memories party))
    (reached : Reached programs memories network)
    (done : Done network) (party : Nat) :
    post party (network.parties party).memory := by
  have keeps : Keeps carries post network := by
    refine reached.invariant (fun _ isStart => ?_) (fun _ _ => Keeps.step)
    subst isStart
    exact ⟨ensured, nofun⟩
  have own := keeps.ensures party
  rw [done party] at own
  exact own

end Reached

end OpenUH.Foundation.MessagePassing
