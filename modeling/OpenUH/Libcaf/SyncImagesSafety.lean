import OpenUH.Libcaf.SyncImagesAccounts

/-!
# SYNC IMAGES is a rendezvous

The accounts of the images bound how far the two counts of a link can be
apart, which is what the links need to stay good.
-/

namespace OpenUH.Libcaf.SyncImages

open Foundation
open Function (update_apply update_of_ne update_self)

variable {job : Job} {state : State} {me : Nat} {image : Image}

/-- The partner whose notification is about to be taken. -/
def Phase.takes : Phase → Option Nat
  | .taking partner _ => some partner
  | .clearing partner _ => some partner
  | _ => none

/-- What every reached state satisfies. -/
structure Invariant (job : Job) (state : State) : Prop where
  locals : ∀ me, Local job me (state.images me)
  links : ∀ sender receiver, sender ≠ receiver →
    Link.Good job sender receiver (state.link sender receiver)
  ready : ∀ me partner, (state.images me).phase.takes = some partner →
    (state.link partner me).taken < (state.link partner me).delivered
  own : ∀ me, state.inFlight me me = []

/-! ## Pairs are symmetric -/

theorem sameNode_symm (job : Job) (me partner : Nat) :
    job.sameNode me partner = job.sameNode partner me := by
  simp [Job.sameNode, eq_comm]

theorem countsBytes_symm (job : Job) (me partner : Nat) :
    job.countsBytes me partner = job.countsBytes partner me := by
  simp [Job.countsBytes, sameNode_symm job me partner]

theorem usesSense_symm (job : Job) (me partner : Nat) :
    job.usesSense me partner = job.usesSense partner me := by
  simp [Job.usesSense, sameNode_symm job me partner]

theorem shows_eq (job : Job) (state : State) (me partner : Nat) :
    shows job (state.images me) me partner = (state.link partner me).shows job partner me := by
  unfold shows Link.shows
  rw [countsBytes_symm]
  rfl

/-! ## The bounds of the counts -/

theorem Local.notified_le (locals : Local job me image) (partner : Nat) :
    image.notified partner ≤ image.started partner := by
  have := locals.accounts.notified partner
  omega

theorem Local.started_le (locals : Local job me image) (partner : Nat) :
    image.started partner ≤ image.taken partner + 1 := by
  have settled := locals.accounts.taken partner
  have bit := Bool.toNat_le (owesTake me image partner)
  omega

variable {partner : Nat}

/-- What is still to be taken is part of the statement. -/
theorem Local.inside_of_owesTake (locals : Local job me image)
    (owed : owesTake me image partner = true) :
    insideOf me image.imageList partner = true := by
  have shape := locals.shape.2
  unfold owesTake at owed
  unfold insideOf
  cases phase : image.phase with
  | idle => simp [phase] at owed
  | notifying current rest => simpa [phase] using owed
  | polling current rest =>
      rw [phase] at owed shape
      simp only [decide_eq_true_eq] at owed ⊢
      exact ⟨shape.2.subset owed.1, owed.2⟩
  | taking current rest =>
      rw [phase] at owed shape
      simp only [decide_eq_true_eq] at owed ⊢
      exact ⟨shape.2.2.subset owed.1, owed.2⟩
  | restoring current rest x =>
      rw [phase] at owed shape
      simp only [decide_eq_true_eq] at owed ⊢
      exact ⟨shape.2.2.subset (List.mem_cons_of_mem _ owed.1), owed.2⟩
  | scanning current rest =>
      rw [phase] at owed shape
      simpa using shape.2.2 partner owed
  | clearing current rest =>
      rw [phase] at owed shape
      simpa using shape.2.2.2 partner owed
  | replying current rest =>
      rw [phase] at owed shape
      simpa using shape.2.2.2.2 partner owed

theorem Local.returned_le (locals : Local job me image) (partner : Nat) :
    image.returned partner ≤ image.taken partner := by
  have taken := locals.accounts.taken partner
  have returned := locals.accounts.returned partner
  cases owed : owesTake me image partner with
  | false =>
      rw [owed] at taken
      simp only [Bool.toNat_false] at taken
      omega
  | true =>
      rw [locals.inside_of_owesTake owed] at returned
      rw [owed] at taken
      omega

/-- The higher image of a ping-pong pair takes before it notifies. -/
theorem Local.notified_le_taken (locals : Local job me image)
    (pingPong : job.algorithm = .pingPong) (lower : partner < me) :
    image.notified partner ≤ image.taken partner := by
  have taken := locals.accounts.taken partner
  have notified := locals.accounts.notified partner
  have shape := locals.shape.2
  have follows : owesTake me image partner = true → owesNotice job me image partner = true := by
    unfold owesTake owesNotice
    cases phase : image.phase with
    | idle => simp
    | notifying current rest => simp +contextual [pingPong, lower]
    | polling | taking =>
        rw [phase] at shape
        exact absurd pingPong shape.1
    | restoring current rest x =>
        rw [phase] at shape
        simp [Job.usesSense, pingPong] at shape
    | scanning | clearing => simp [lower]
    | replying current rest => simp +contextual [lower]
  cases owed : owesTake me image partner with
  | false =>
      rw [owed] at taken
      simp only [Bool.toNat_false] at taken
      omega
  | true =>
      rw [follows owed] at notified
      rw [owed] at taken
      omega

namespace Invariant

variable (invariant : Invariant job state)
include invariant

/-- What an image took from another, that one sent. -/
theorem taken_le {me partner : Nat} (distinct : partner ≠ me) :
    (state.images me).taken partner ≤ (state.images partner).notified me := by
  have good := invariant.links partner me distinct
  exact good.behind.trans good.delivered_le

/-- Two images are at most two notifications apart. -/
theorem ahead {sender receiver : Nat} (distinct : sender ≠ receiver) :
    (state.link sender receiver).notified ≤ (state.link sender receiver).taken + 2 := by
  have sent := (invariant.locals sender).notified_le receiver
  have begun := (invariant.locals sender).started_le receiver
  have taken := invariant.taken_le distinct.symm
  have reply := (invariant.locals receiver).notified_le sender
  have ends := (invariant.locals receiver).started_le sender
  change (state.images sender).notified receiver ≤ (state.images receiver).taken sender + 2
  omega

/-- The images of a ping-pong pair take turns. -/
theorem turns {sender receiver : Nat} (distinct : sender ≠ receiver)
    (pingPong : job.algorithm = .pingPong) :
    (state.link sender receiver).notified ≤ (state.link sender receiver).taken + 1 := by
  have sent := (invariant.locals sender).notified_le receiver
  have begun := (invariant.locals sender).started_le receiver
  have taken := invariant.taken_le distinct.symm
  have takes := invariant.taken_le distinct
  have reply := (invariant.locals receiver).notified_le sender
  have ends := (invariant.locals receiver).started_le sender
  change (state.images sender).notified receiver ≤ (state.images receiver).taken sender + 1
  rcases Nat.lt_or_gt_of_ne distinct with lower | higher
  · have order := (invariant.locals receiver).notified_le_taken pingPong lower
    omega
  · have order := (invariant.locals sender).notified_le_taken pingPong higher
    omega

/-- While a sense is held back, its sender is not about to send another. -/
theorem free {sender receiver : Nat} (distinct : sender ≠ receiver)
    (owed : owesNotice job sender (state.images sender) receiver = true)
    (held : (state.link sender receiver).restoring ≠ none) :
    (state.link sender receiver).notified ≤ (state.link sender receiver).taken := by
  have sent := (invariant.locals sender).accounts.notified receiver
  have begun := (invariant.locals sender).started_le receiver
  have taken := invariant.taken_le distinct.symm
  have reply := (invariant.locals receiver).notified_le sender
  have settled := (invariant.locals receiver).accounts.taken sender
  have through : owesTake receiver (state.images receiver) sender = false := by
    obtain ⟨nodup, shape⟩ := (invariant.locals receiver).shape
    change (state.images receiver).phase.restores sender ≠ none at held
    unfold owesTake
    cases phase : (state.images receiver).phase <;> rw [phase] at held shape <;>
      simp only [Phase.restores, ne_eq, not_true_eq_false] at held
    rename_i current rest x
    obtain rfl : current = sender := by
      by_contra other
      simp [other] at held
    have fresh := (List.nodup_cons.mp (shape.2.2.nodup nodup)).1
    simp [fresh]
  rw [owed] at sent
  rw [through] at settled
  change (state.images sender).notified receiver ≤ (state.images receiver).taken sender
  simp only [Bool.toNat_true, Bool.toNat_false] at sent settled
  omega

end Invariant

/-! ## Changes that links do not see -/

/-- What a link sees of an image is the same, for the partners in question. -/
structure Kept (partners : Nat → Prop) (before after : Image) : Prop where
  notified : after.notified = before.notified
  syncSenses : after.syncSenses = before.syncSenses
  value : ∀ partner, partners partner → after.value partner = before.value partner
  val : after.val = before.val
  check : ∀ partner, partners partner → after.check partner = before.check partner
  taken : ∀ partner, partners partner → after.taken partner = before.taken partner
  restores : ∀ partner, partners partner →
    after.phase.restores partner = before.phase.restores partner

variable {change : Image → Image}

theorem link_modify {partners : Nat → Prop}
    (kept : Kept partners (state.images me) (change (state.images me)))
    {sender receiver : Nat} (apart : receiver = me → partners sender) :
    (state.modify me change).link sender receiver = state.link sender receiver := by
  have sent : ((state.modify me change).images sender).notified =
        (state.images sender).notified ∧
      ((state.modify me change).images sender).syncSenses = (state.images sender).syncSenses := by
    simp only [State.modify, update_apply]
    split
    · rename_i same
      subst same
      exact ⟨kept.notified, kept.syncSenses⟩
    · exact ⟨rfl, rfl⟩
  unfold State.link
  rw [sent.1, sent.2]
  by_cases here : receiver = me
  · subst here
    have known := apart rfl
    simp only [State.modify, update_self, kept.value sender known,
      kept.val, kept.check sender known, kept.taken sender known,
      kept.restores sender known]
  · simp only [State.modify, update_of_ne here]

/-- The head of a loop, where nothing is held back or about to be taken. -/
structure Heads (before after : Image) : Prop where
  notified : after.notified = before.notified
  syncSenses : after.syncSenses = before.syncSenses
  value : after.value = before.value
  val : after.val = before.val
  check : after.check = before.check
  taken : after.taken = before.taken
  restores : ∀ partner, after.phase.restores partner = none
  takes : after.phase.takes = none

theorem heads_pollFrom (image : Image) (me : Nat) (rest : List Nat) :
    Heads image (image.pollFrom me rest) := by
  cases rest <;>
    exact ⟨rfl, rfl, rfl, rfl, rfl, rfl, fun _ => rfl, rfl⟩

theorem heads_scanAgain (image : Image) (me : Nat) : Heads image (image.scanAgain me) := by
  unfold Image.scanAgain
  split
  · exact ⟨rfl, rfl, rfl, rfl, rfl, rfl, fun _ => rfl, rfl⟩
  · split <;> exact ⟨rfl, rfl, rfl, rfl, rfl, rfl, fun _ => rfl, rfl⟩

theorem heads_scanFrom (image : Image) (me : Nat) (rest : List Nat) :
    Heads image (image.scanFrom me rest) := by
  cases rest with
  | nil => exact heads_scanAgain image me
  | cons partner rest =>
      exact ⟨rfl, rfl, rfl, rfl, rfl, rfl, fun _ => rfl, rfl⟩

theorem heads_notifyFrom (image : Image) (job : Job) (me : Nat)
    (rest : List Nat) : Heads image (image.notifyFrom job me rest) := by
  cases rest with
  | nil =>
      unfold Image.notifyFrom
      dsimp only
      split
      · exact heads_scanAgain image me
      · exact heads_pollFrom image me image.imageList
  | cons partner rest =>
      exact ⟨rfl, rfl, rfl, rfl, rfl, rfl, fun _ => rfl, rfl⟩

theorem Heads.kept {before after : Image} (heads : Heads before after)
    (free : ∀ partner, before.phase.restores partner = none) :
    Kept (fun _ => True) before after where
  notified := heads.notified
  syncSenses := heads.syncSenses
  value := fun _ _ => by rw [heads.value]
  val := heads.val
  check := fun _ _ => by rw [heads.check]
  taken := fun _ _ => by rw [heads.taken]
  restores := fun partner _ => by rw [heads.restores, free]

/-- A step of an image that its links do not see. -/
theorem Invariant.modify (invariant : Invariant job state)
    (kept : Kept (fun _ => True) (state.images me) (change (state.images me)))
    (locals : Local job me (change (state.images me)))
    (ready : ∀ partner,
      (change (state.images me)).phase.takes = some partner →
      (state.link partner me).taken < (state.link partner me).delivered) :
    Invariant job (state.modify me change) := by
  refine ⟨fun other => ?_, fun sender receiver distinct => ?_,
    fun other partner => ?_, invariant.own⟩
  · by_cases here : other = me
    · subst here
      simpa [State.modify] using locals
    · simpa [State.modify, here] using invariant.locals other
  · rw [link_modify kept fun _ => trivial]
    exact invariant.links sender receiver distinct
  · rw [link_modify kept fun _ => trivial]
    by_cases here : other = me
    · subst here
      simpa [State.modify] using ready partner
    · simpa [State.modify, here] using invariant.ready other partner

/-- The same for a step to the head of a loop. -/
theorem Invariant.modify_heads (invariant : Invariant job state)
    (free : ∀ partner, (state.images me).phase.restores partner = none)
    (heads : Heads (state.images me) (change (state.images me)))
    (locals : Local job me (change (state.images me))) :
    Invariant job (state.modify me change) := by
  refine invariant.modify (heads.kept free) locals fun partner takes => ?_
  rw [heads.takes] at takes
  cases takes

theorem heads_start (image : Image) (job : Job) (me : Nat) (imageList : List Nat) :
    Heads image (image.start job me imageList) := by
  have heads := heads_notifyFrom
    { image with
      imageList := imageList
      checkImages := fun _ => false
      started := fun partner =>
        if partner ∈ imageList ∧ partner ≠ me then
          image.started partner + 1
        else
          image.started partner } job me imageList
  exact ⟨heads.notified, heads.syncSenses, heads.value, heads.val,
    heads.check, heads.taken, heads.restores, heads.takes⟩

theorem heads_mark (image : Image) (job : Job) (me partner : Nat) (rest : List Nat) :
    Heads image ((image.mark job me partner).notifyFrom job me rest) := by
  have heads := heads_notifyFrom (image.mark job me partner) job me rest
  have marked : (image.mark job me partner).notified = image.notified ∧
      (image.mark job me partner).syncSenses = image.syncSenses ∧
      (image.mark job me partner).value = image.value ∧
      (image.mark job me partner).val = image.val ∧
      (image.mark job me partner).check = image.check ∧
      (image.mark job me partner).taken = image.taken := by
    unfold Image.mark
    split <;> exact ⟨rfl, rfl, rfl, rfl, rfl, rfl⟩
  obtain ⟨notified, syncSenses, value, val, check, taken⟩ := marked
  exact ⟨heads.notified.trans notified, heads.syncSenses.trans syncSenses,
    heads.value.trans value, heads.val.trans val, heads.check.trans check,
    heads.taken.trans taken, heads.restores, heads.takes⟩

/-! ## Notifying -/

theorem local_receive (locals : Local job me image) (sender : Nat)
    (notice : Notice) : Local job me (image.receive sender notice) := by
  cases notice <;>
    exact ⟨⟨locals.accounts.notified, locals.accounts.taken,
      locals.accounts.returned⟩, locals.shape⟩

theorem local_receiveByte (locals : Local job me image) (sender : Nat) :
    Local job me (image.receiveByte sender) :=
  ⟨⟨locals.accounts.notified, locals.accounts.taken, locals.accounts.returned⟩, locals.shape⟩

theorem images_notify_self (job : Job) (state : State) {me partner : Nat}
    (distinct : partner ≠ me) :
    (notify job state me partner).images me = (state.images me).noteSent job me partner := by
  unfold notify
  split
  · simp [State.modify, update_of_ne distinct.symm]
  · split
    · simp [State.modify, update_of_ne distinct.symm]
    · simp [State.modify, State.issue]

/-- Another image is not changed, but for its flags. -/
theorem images_notify_other (job : Job) (state : State) (partner : Nat)
    {me other : Nat} (distinct : other ≠ me) :
    (notify job state me partner).images other = state.images other ∨
      (∃ notice, (notify job state me partner).images other =
        (state.images other).receive me notice) ∨
      (notify job state me partner).images other = (state.images other).receiveByte me := by
  unfold notify
  by_cases target : other = partner
  · subst target
    split
    · exact .inr (.inr (by simp [State.modify, distinct]))
    · split
      · exact .inr (.inl ⟨_, by
          simp only [State.modify, update_of_ne distinct, update_self]
          rfl⟩)
      · exact .inl (by simp [State.modify, State.issue, distinct])
  · refine .inl ?_
    split
    · simp [State.modify, distinct, target]
    · split <;> simp [State.modify, State.issue, distinct, target]

theorem receive_eq (image : Image) (sender : Nat) (notice : Notice) :
    image.receive sender notice =
      { image with
        value := Function.update image.value sender (Link.apply (image.value sender) notice) } := by
  cases notice <;> rfl

theorem link_notify (job : Job) (state : State) {me partner : Nat}
    (distinct : partner ≠ me) (sender receiver : Nat) :
    (notify job state me partner).link sender receiver =
      if sender = me ∧ receiver = partner then
        (state.link me partner).notify job me partner
      else
        state.link sender receiver := by
  have notice : (state.link me partner).notice job = noticeOf job (state.images me) partner := rfl
  by_cases source : sender = me
  · subst source
    by_cases target : receiver = partner
    · subst target
      rw [if_pos ⟨rfl, rfl⟩]
      unfold Link.notify
      rw [notice]
      unfold notify
      cases bytes : job.countsBytes sender receiver <;>
        cases direct : job.direct sender receiver <;>
        cases sense : job.usesSense sender receiver <;>
        simp [State.link, State.modify, State.issue, Image.noteSent,
          Image.bump, Image.receiveByte, Image.nextSense, receive_eq, distinct,
          distinct.symm, sense]
    · rw [if_neg (by simp [target])]
      unfold notify
      by_cases own : receiver = sender
      · subst own
        cases bytes : job.countsBytes receiver partner <;>
          cases direct : job.direct receiver partner <;>
          cases sense : job.usesSense receiver partner <;>
          simp [State.link, State.modify, State.issue, Image.noteSent, Image.bump, target, sense]
      · cases bytes : job.countsBytes sender partner <;>
          cases direct : job.direct sender partner <;>
          cases sense : job.usesSense sender partner <;>
          simp [State.link, State.modify, State.issue, Image.noteSent,
            Image.bump, target, own, distinct.symm, sense]
  · rw [if_neg (by simp [source])]
    have sent : ((notify job state me partner).images sender).notified =
          (state.images sender).notified ∧
        ((notify job state me partner).images sender).syncSenses =
          (state.images sender).syncSenses := by
      rcases images_notify_other job state partner source
        with same | ⟨notice, same⟩ | same <;> rw [same]
      · exact ⟨rfl, rfl⟩
      · simp [receive_eq]
      · exact ⟨rfl, rfl⟩
    have kept : ((notify job state me partner).images receiver).value sender =
          (state.images receiver).value sender ∧
        ((notify job state me partner).images receiver).val sender =
          (state.images receiver).val sender ∧
        ((notify job state me partner).images receiver).check = (state.images receiver).check ∧
        ((notify job state me partner).images receiver).taken = (state.images receiver).taken ∧
        ((notify job state me partner).images receiver).phase = (state.images receiver).phase := by
      by_cases own : receiver = me
      · subst own
        rw [images_notify_self job state distinct]
        exact ⟨rfl, rfl, rfl, rfl, rfl⟩
      · rcases images_notify_other job state partner own
          with same | ⟨notice, same⟩ | same <;> rw [same]
        · exact ⟨rfl, rfl, rfl, rfl, rfl⟩
        · simp [receive_eq, source]
        · simp [Image.receiveByte, source]
    obtain ⟨value, val, check, taken, phase⟩ := kept
    have flight : (notify job state me partner).inFlight sender receiver =
        state.inFlight sender receiver := by
      unfold notify
      split
      · rfl
      · split
        · rfl
        · simp [State.modify, State.issue, source]
    unfold State.link
    rw [sent.1, sent.2, flight, value, val, check, taken, phase]

/-- A notification to a partner that is owed one. -/
theorem Invariant.notify (invariant : Invariant job state) (distinct : partner ≠ me)
    (owed : owesNotice job me (state.images me) partner = true)
    (free : ∀ partner, (state.images me).phase.restores partner = none)
    {head : Image → Image} (heads : ∀ image, Heads image (head image))
    (locals : Local job me (head ((state.images me).noteSent job me partner))) :
    Invariant job ((notify job state me partner).modify me head) := by
  have own := images_notify_self job state distinct
  have links : ∀ sender receiver,
      ((SyncImages.notify job state me partner).modify me head).link
          sender receiver =
        if sender = me ∧ receiver = partner then
          (state.link me partner).notify job me partner
        else
          state.link sender receiver := by
    intro sender receiver
    rw [← link_notify job state distinct]
    refine link_modify ((heads _).kept fun other => ?_) fun _ => trivial
    rw [own]
    exact free other
  have later : ∀ sender receiver,
      (((SyncImages.notify job state me partner).modify me head).link
          sender receiver).taken = (state.link sender receiver).taken ∧
        (state.link sender receiver).delivered ≤
          (((SyncImages.notify job state me partner).modify me head).link
            sender receiver).delivered := by
    intro sender receiver
    rw [links]
    split
    · rename_i here
      obtain ⟨rfl, rfl⟩ := here
      refine ⟨rfl, ?_⟩
      rw [Link.delivered_notify (invariant.links sender receiver distinct.symm)]
      split <;> omega
    · exact ⟨rfl, le_refl _⟩
  refine ⟨fun other => ?_, fun sender receiver apart => ?_,
    fun other sender takes => ?_, fun other => ?_⟩
  · by_cases here : other = me
    · subst here
      simpa [State.modify, own] using locals
    · simp only [State.modify, update_of_ne here]
      rcases images_notify_other job state partner here
        with same | ⟨notice, same⟩ | same <;> rw [same]
      · exact invariant.locals other
      · exact local_receive (invariant.locals other) me notice
      · exact local_receiveByte (invariant.locals other) me
  · rw [links]
    split
    · rename_i here
      obtain ⟨rfl, rfl⟩ := here
      exact Link.good_notify (invariant.links sender receiver apart) (invariant.free apart owed)
    · exact invariant.links sender receiver apart
  · obtain ⟨taken, arrived⟩ := later sender other
    rw [taken]
    refine Nat.lt_of_lt_of_le (invariant.ready other sender ?_) arrived
    by_cases here : other = me
    · subst here
      simp only [State.modify, update_self, (heads _).takes] at takes
      cases takes
    · simp only [State.modify, update_of_ne here] at takes
      rcases images_notify_other job state partner here
        with same | ⟨notice, same⟩ | same <;> rw [same] at takes
      · exact takes
      · simpa [receive_eq] using takes
      · exact takes
  · have kept := congrArg Link.inFlight (links other other)
    rw [if_neg (by rintro ⟨rfl, rfl⟩; exact distinct rfl)] at kept
    exact kept.trans (invariant.own other)

/-! ## Landing -/

theorem deliver_cases {state after : State} {sender receiver index : Nat}
    (lands : deliver state sender receiver index = some after) :
    ∃ notice, (state.inFlight sender receiver)[index]? = some notice ∧
      (∀ other, after.images other =
        if other = receiver then
          (state.images receiver).receive sender notice
        else
          state.images other) ∧
      ∀ source target, after.inFlight source target =
        if source = sender ∧ target = receiver then
          (state.inFlight sender receiver).eraseIdx index
        else
          state.inFlight source target := by
  unfold deliver at lands
  obtain ⟨notice, found, rfl⟩ := Option.map_eq_some_iff.mp lands
  refine ⟨notice, found, fun other => ?_, fun source target => ?_⟩
  · simp only [State.modify, update_apply]
  · simp only [update_apply]
    by_cases here : source = sender
    · subst here
      simp [update_apply]
    · simp [here]

theorem Invariant.deliver (invariant : Invariant job state) {after : State}
    {sender receiver index : Nat} (inOrder : job.usesSense sender receiver = true → index = 0)
    (lands : deliver state sender receiver index = some after) :
    Invariant job after := by
  obtain ⟨notice, found, images, inFlight⟩ := deliver_cases lands
  have distinct : sender ≠ receiver := by
    rintro rfl
    rw [invariant.own] at found
    cases found
  have links : ∀ source target,
      after.link source target =
        if source = sender ∧ target = receiver then
          (state.link sender receiver).land index notice
        else
          state.link source target := by
    intro source target
    unfold State.link
    rw [images, images, inFlight]
    by_cases here : source = sender ∧ target = receiver
    · obtain ⟨rfl, rfl⟩ := here
      simp [receive_eq, Link.land, distinct]
    · simp only [if_neg here]
      by_cases hit : target = receiver
      · have other : source ≠ sender := fun same => here ⟨same, hit⟩
        by_cases back : source = receiver
        · simp [receive_eq, hit, back, distinct.symm]
        · simp [receive_eq, hit, back, other]
      · by_cases back : source = receiver <;>
          simp [receive_eq, hit, back]
  have later : ∀ source target,
      (after.link source target).taken = (state.link source target).taken ∧
        (state.link source target).delivered ≤ (after.link source target).delivered := by
    intro source target
    rw [links]
    split
    · rename_i here
      obtain ⟨rfl, rfl⟩ := here
      refine ⟨rfl, ?_⟩
      rw [(Link.delivered_land (invariant.links source target distinct) found).1]
      omega
    · exact ⟨rfl, le_refl _⟩
  refine ⟨fun other => ?_, fun source target apart => ?_,
    fun other source takes => ?_, fun other => ?_⟩
  · rw [images]
    split
    · rename_i here
      subst here
      exact local_receive (invariant.locals other) sender notice
    · exact invariant.locals other
  · rw [links]
    split
    · rename_i here
      obtain ⟨rfl, rfl⟩ := here
      exact Link.good_land (invariant.links source target apart) found inOrder
        (invariant.turns apart)
    · exact invariant.links source target apart
  · obtain ⟨taken, arrived⟩ := later source other
    rw [taken]
    refine Nat.lt_of_lt_of_le (invariant.ready other source ?_) arrived
    rw [images] at takes
    split at takes
    · rename_i here
      subst here
      simpa [receive_eq] using takes
    · exact takes
  · rw [inFlight, if_neg (by rintro ⟨rfl, rfl⟩; exact distinct rfl)]
    exact invariant.own other

/-! ## Taking -/

/-- The receiver changes the link it takes from, and no other. -/
theorem Invariant.receives (invariant : Invariant job state) (distinct : partner ≠ me)
    (kept : Kept (· ≠ partner) (state.images me) (change (state.images me)))
    (good : Link.Good job partner me ((state.modify me change).link partner me))
    (locals : Local job me (change (state.images me)))
    (takes : (change (state.images me)).phase.takes = none) :
    Invariant job (state.modify me change) := by
  have others : ∀ sender receiver, ¬(sender = partner ∧ receiver = me) →
      (state.modify me change).link sender receiver = state.link sender receiver := by
    intro sender receiver apart
    refine link_modify kept fun here => ?_
    exact fun same => apart ⟨same, here⟩
  refine ⟨fun other => ?_, fun sender receiver apart => ?_,
    fun other sender owed => ?_, invariant.own⟩
  · by_cases here : other = me
    · subst here
      simpa [State.modify] using locals
    · simpa [State.modify, here] using invariant.locals other
  · by_cases here : sender = partner ∧ receiver = me
    · obtain ⟨rfl, rfl⟩ := here
      exact good
    · rw [others sender receiver here]
      exact invariant.links sender receiver apart
  · by_cases here : other = me
    · subst here
      simp only [State.modify, update_self, takes] at owed
      cases owed
    · rw [others sender other fun same => here same.2]
      refine invariant.ready other sender ?_
      simpa [State.modify, here] using owed

theorem link_received (state : State) {me partner : Nat}
    (change : Image → Image) (distinct : partner ≠ me) :
    (state.modify me change).link partner me =
      { state.link partner me with
        value := (change (state.images me)).value partner
        val := (change (state.images me)).val partner
        check := (change (state.images me)).check partner
        taken := (change (state.images me)).taken partner
        restoring := (change (state.images me)).phase.restores partner } := by
  simp [State.link, State.modify, distinct]

/-- What `Image.take` does to the link. -/
theorem link_take (job : Job) (state : State) {me partner : Nat} (distinct : partner ≠ me) :
    (state.modify me (·.take job me partner)).link partner me =
      (state.link partner me).take job partner me := by
  rw [link_received state _ distinct]
  simp only [Link.take, Image.take, ← countsBytes_symm job me partner,
    ← usesSense_symm job me partner, Image.bump, update_self,
    Link.mk.injEq, true_and]
  refine ⟨?_, rfl, ?_, rfl, rfl⟩
  · cases job.countsBytes me partner
    · cases job.usesSense me partner <;> simp [State.link]
    · simp [State.link]
  · cases job.countsBytes me partner <;> simp [State.link]

variable {rest : List Nat}

/-- The sense an image turned to is the one it expects of its partner. -/
theorem Invariant.expected (invariant : Invariant job state)
    (here : (state.images me).phase = .taking partner rest)
    (distinct : partner ≠ me) (senses : job.usesSense me partner = true) :
    (state.images me).syncSenses partner = Link.senseOf ((state.link partner me).taken + 1) := by
  have sent := (invariant.locals me).accounts.notified partner
  have taken := (invariant.locals me).accounts.taken partner
  have sense := ((invariant.links me partner distinct.symm).senses senses).1
  simp only [owesNotice, here, Bool.toNat_false, Nat.add_zero] at sent
  simp only [owesTake, here] at taken
  have owed : decide (partner ∈ partner :: rest ∧ partner ≠ me) = true := by
    simp [distinct]
  rw [owed] at taken
  change (state.images me).syncSenses partner = Link.senseOf ((state.images me).taken partner + 1)
  change (state.images me).syncSenses partner =
    Link.senseOf ((state.images me).notified partner) at sense
  rw [sense, sent, ← taken]
  rfl

theorem kept_take (image : Image) (job : Job) (me partner : Nat) (phase : Phase)
    (restores : ∀ other, other ≠ partner → phase.restores other = image.phase.restores other) :
    Kept (· ≠ partner) image
      { image.take job me partner with phase := phase } where
  notified := rfl
  syncSenses := rfl
  value := fun other apart => by
    simp only [Image.take]
    split
    · rfl
    · split <;> simp [apart]
  val := rfl
  check := fun other apart => by
    simp only [Image.take]
    split <;> simp [apart]
  taken := fun other apart => by simp [Image.take, Image.bump, apart]
  restores := restores

section

variable (invariant : Invariant job state)

include invariant

theorem invariant_taking (here : (state.images me).phase = .taking partner rest) :
    Invariant job (state.modify me fun image =>
        if job.usesSense me partner ∧
            image.value partner ≠ image.syncSenses partner then
          { image.take job me partner with
            phase := .restoring partner rest (image.value partner) }
        else
          (image.take job me partner).pollFrom me rest) := by
  have shape := (invariant.locals me).shape.2
  rw [here] at shape
  obtain ⟨other, distinct, -⟩ := shape
  have good := invariant.links partner me distinct
  have ready := invariant.ready me partner (by rw [here]; rfl)
  have ahead := invariant.ahead distinct
  have idle : (state.link partner me).restoring = none := by
    simp [State.link, here, Phase.restores]
  have sense := usesSense_symm job me partner
  by_cases back : job.usesSense me partner ∧
      (state.images me).value partner ≠ (state.images me).syncSenses partner
  · obtain ⟨senses, unexpected⟩ := back
    have expected := invariant.expected here distinct senses
    have change : (state.modify me fun image =>
        if job.usesSense me partner ∧
            image.value partner ≠ image.syncSenses partner then
          { image.take job me partner with
            phase := .restoring partner rest (image.value partner) }
        else
          (image.take job me partner).pollFrom me rest) =
        state.modify me fun image =>
          { image.take job me partner with
            phase := .restoring partner rest (image.value partner) } := by
      simp [State.modify, senses, unexpected]
    rw [change]
    have link : (state.modify me fun image =>
        { image.take job me partner with
          phase := .restoring partner rest (image.value partner) }).link partner me =
        ((state.link partner me).take job partner me).hold (state.link partner me).value := by
      rw [← link_take job state distinct, link_received state _ distinct,
        link_received state _ distinct]
      simp [Link.hold, Phase.restores, State.link]
    refine invariant.receives distinct (kept_take _ _ _ _ _ fun other apart => ?_)
      ?_ (local_holding (invariant.locals me) here senses _) rfl
    · simp [Phase.restores, here, apart.symm]
    · rw [link]
      refine Link.good_hold good idle ready ahead (sense ▸ senses) ?_
      rw [← expected]
      exact unexpected
  · have change : (state.modify me fun image =>
        if job.usesSense me partner ∧
            image.value partner ≠ image.syncSenses partner then
          { image.take job me partner with
            phase := .restoring partner rest (image.value partner) }
        else
          (image.take job me partner).pollFrom me rest) =
        state.modify me fun image =>
          (image.take job me partner).pollFrom me rest := by
      unfold State.modify
      dsimp only
      rw [if_neg back]
    rw [change]
    have heads := heads_pollFrom ((state.images me).take job me partner) me rest
    have link : (state.modify me fun image =>
        (image.take job me partner).pollFrom me rest).link partner me =
          (state.link partner me).take job partner me := by
      rw [← link_take job state distinct, link_received state _ distinct,
        link_received state _ distinct]
      simp only [heads.value, heads.val, heads.check, heads.taken, heads.restores]
      simp [Image.take, here, Phase.restores]
    have kept := kept_take (state.images me) job me partner .idle
      fun other _ => by rw [here]; rfl
    refine invariant.receives distinct ?_ ?_ (local_taking (invariant.locals me) here) heads.takes
    · exact ⟨heads.notified.trans kept.notified,
        heads.syncSenses.trans kept.syncSenses,
        fun other apart => by rw [heads.value]; exact kept.value other apart,
        heads.val.trans kept.val,
        fun other apart => by rw [heads.check]; exact kept.check other apart,
        fun other apart => by rw [heads.taken]; exact kept.taken other apart,
        fun other apart => by rw [heads.restores, here]; rfl⟩
    · rw [link]
      refine Link.good_take good idle ready ahead other fun senses => ?_
      have mine : job.usesSense me partner = true := sense ▸ senses
      rw [← invariant.expected here distinct mine]
      by_contra unexpected
      exact back ⟨mine, unexpected⟩

theorem invariant_restoring {x : Int} (here : (state.images me).phase = .restoring partner rest x) :
    Invariant job (state.modify me fun image =>
        ({ image with
          value := Function.update image.value partner x } : Image).pollFrom me rest) := by
  have shape := (invariant.locals me).shape.2
  rw [here] at shape
  obtain ⟨senses, distinct, -⟩ := shape
  have good := invariant.links partner me distinct
  have held : (state.link partner me).restoring = some x := by
    simp [State.link, here, Phase.restores]
  have heads := heads_pollFrom
    { state.images me with
      value := Function.update (state.images me).value partner x } me rest
  have link : (state.modify me fun image =>
      ({ image with
        value := Function.update image.value partner x } : Image).pollFrom
          me rest).link partner me = (state.link partner me).restore x := by
    rw [link_received state _ distinct]
    simp only [heads.value, heads.val, heads.check, heads.taken, heads.restores]
    simp [Link.restore, State.link]
  refine invariant.receives distinct ?_ ?_
    (local_restoring (invariant.locals me) here _) heads.takes
  · refine ⟨heads.notified, heads.syncSenses, fun other apart => ?_, heads.val,
      fun other _ => by rw [heads.check], fun other _ => by rw [heads.taken],
      fun other apart => ?_⟩
    · rw [heads.value]
      exact update_of_ne apart _ _
    · rw [heads.restores, here]
      simp [Phase.restores, apart.symm]
  · rw [link]
    exact Link.good_restore good held (usesSense_symm job me partner ▸ senses)

theorem invariant_clearing (here : (state.images me).phase = .clearing partner rest) :
    Invariant job (state.modify me fun image =>
        if partner < me then
          { cleared image partner with phase := .replying partner rest }
        else
          (cleared image partner).scanFrom me rest) := by
  have shape := (invariant.locals me).shape.2
  rw [here] at shape
  obtain ⟨pingPong, part, checked, checks⟩ := shape
  have distinct := (checks partner checked).2
  have good := invariant.links partner me distinct
  have ready := invariant.ready me partner (by rw [here]; rfl)
  have turns := invariant.turns distinct pingPong
  have heads : Heads (cleared (state.images me) partner)
      (if partner < me then
        { cleared (state.images me) partner with
          phase := .replying partner rest }
      else
        (cleared (state.images me) partner).scanFrom me rest) := by
    split
    · exact ⟨rfl, rfl, rfl, rfl, rfl, rfl, fun _ => rfl, rfl⟩
    · exact heads_scanFrom _ me rest
  have link : (state.modify me fun image =>
      if partner < me then
        { cleared image partner with phase := .replying partner rest }
      else
        (cleared image partner).scanFrom me rest).link partner me =
      { state.link partner me with
        taken := (state.link partner me).taken + 1, value := 0 } := by
    rw [link_received state _ distinct]
    simp only [heads.value, heads.val, heads.check, heads.taken, heads.restores]
    simp [State.link, cleared, Image.bump, here, Phase.restores]
  refine invariant.receives distinct ?_ ?_ (local_clearing (invariant.locals me) here) heads.takes
  · refine ⟨heads.notified, heads.syncSenses, fun other apart => ?_, heads.val,
      fun other _ => by rw [heads.check]; rfl, fun other apart => ?_,
      fun other apart => ?_⟩
    · rw [heads.value]
      exact update_of_ne apart _ _
    · rw [heads.taken]
      simp [cleared, Image.bump, apart]
    · rw [heads.restores, here]
      rfl
  · rw [link]
    exact Link.good_clear good pingPong ready turns

/-! ## Steps -/

/-- A flag that shows a notification has one to take. -/
theorem Invariant.shows_iff
    (distinct : partner ≠ me) (free : (state.images me).phase.restores partner = none) :
    shows job (state.images me) me partner = true ↔
      (state.images me).taken partner < state.delivered partner me := by
  rw [shows_eq]
  exact Link.shows_iff (invariant.links partner me distinct) free
    (invariant.ahead distinct) (invariant.turns distinct)

theorem invariant_notifying (here : (state.images me).phase = .notifying partner rest) :
    Invariant job
      ((if job.notifiesFirst me partner then
        notify job state me partner
      else
        state).modify me fun image =>
          (image.mark job me partner).notifyFrom job me rest) := by
  have locals := local_afterNotifying (invariant.locals me) here
  have free : ∀ other, (state.images me).phase.restores other = none := by
    intro other
    rw [here]
    rfl
  unfold afterNotifying at locals
  split
  · rename_i first
    rw [if_pos first] at locals
    have distinct : partner ≠ me := by
      rintro rfl
      unfold Job.notifiesFirst at first
      split at first <;> simp at first
    refine invariant.notify distinct ?_ free
      (fun image => heads_mark image job me partner rest) locals
    unfold owesNotice
    rw [here]
    have later : ¬(job.algorithm = .pingPong ∧ partner < me) := by
      rintro ⟨pingPong, lower⟩
      simp only [Job.notifiesFirst, pingPong, decide_eq_true_eq] at first
      omega
    simp [later, distinct]
  · rename_i first
    rw [if_neg first] at locals
    exact invariant.modify_heads free (heads_mark _ job me partner rest) locals

theorem invariant_act {after : State}
    (acts : act job state me = some after) : Invariant job after := by
  unfold act at acts
  cases here : (state.images me).phase with
  | idle =>
      rw [here] at acts
      cases acts
  | notifying partner rest =>
      rw [here] at acts
      obtain rfl := Option.some.inj acts
      exact invariant_notifying invariant here
  | polling partner rest =>
      rw [here] at acts
      dsimp only at acts
      have free : ∀ other, (state.images me).phase.restores other = none := by
        intro other
        rw [here]
        rfl
      split at acts
      · rename_i same
        subst same
        obtain rfl := Option.some.inj acts
        exact invariant.modify_heads free (heads_pollFrom _ _ rest)
          (local_polling_self (invariant.locals partner) here)
      · rename_i distinct
        split at acts
        · rename_i shown
          obtain rfl := Option.some.inj acts
          refine invariant.modify ⟨rfl, rfl, fun _ _ => rfl, rfl,
            fun _ _ => rfl, fun _ _ => rfl, fun other _ => by rw [free]; rfl⟩
            (local_polling (invariant.locals me) here distinct) ?_
          intro other takes
          obtain rfl : partner = other := Option.some.inj takes
          exact (invariant.shows_iff distinct (free partner)).mp shown
        · cases acts
  | taking partner rest =>
      rw [here] at acts
      obtain rfl := Option.some.inj acts
      exact invariant_taking invariant here
  | restoring partner rest x =>
      rw [here] at acts
      obtain rfl := Option.some.inj acts
      exact invariant_restoring invariant here
  | scanning partner rest =>
      rw [here] at acts
      obtain rfl := Option.some.inj acts
      have free : ∀ other, (state.images me).phase.restores other = none := by
        intro other
        rw [here]
        rfl
      have shape := (invariant.locals me).shape.2
      rw [here] at shape
      by_cases found : (state.images me).checkImages partner = true ∧
          shows job (state.images me) me partner = true
      · have distinct := (shape.2.2 partner found.1).2
        refine invariant.modify ?_ ?_ ?_
        · simp only [if_pos found]
          exact ⟨rfl, rfl, fun _ _ => rfl, rfl, fun _ _ => rfl,
            fun _ _ => rfl, fun other _ => by rw [free]; rfl⟩
        · simp only [if_pos found]
          exact local_found (invariant.locals me) here found.1
        · intro other takes
          simp only [if_pos found] at takes
          obtain rfl : partner = other := Option.some.inj takes
          exact (invariant.shows_iff distinct (free partner)).mp found.2
      · refine invariant.modify_heads free ?_ ?_
        · simp only [if_neg found]
          exact heads_scanFrom _ me rest
        · simp only [if_neg found]
          exact local_scanning (invariant.locals me) here
  | clearing partner rest =>
      rw [here] at acts
      obtain rfl := Option.some.inj acts
      exact invariant_clearing invariant here
  | replying partner rest =>
      rw [here] at acts
      obtain rfl := Option.some.inj acts
      have shape := (invariant.locals me).shape.2
      rw [here] at shape
      have distinct : partner ≠ me := by
        have lower := shape.2.2.1
        omega
      refine invariant.notify distinct ?_ ?_
        (fun image => heads_scanFrom image me rest)
        (local_replying (invariant.locals me) here)
      · unfold owesNotice
        rw [here]
        simp
      · intro other
        rw [here]
        rfl

end

theorem good_initial (job : Job) (sender receiver : Nat) :
    Link.Good job sender receiver (initial.link sender receiver) := by
  have link : initial.link sender receiver = ⟨0, 0, [], 0, 0, 0, 0, none⟩ := rfl
  rw [link]
  refine ⟨Nat.le_refl _, Nat.le_refl _, fun _ => rfl, fun _ => ?_,
    fun _ => ?_, fun _ => ?_, fun _ => ?_⟩
  · decide
  · simp [Link.delivered]
  · simp [Link.delivered]
  · simp [Link.delivered, Link.senseOf]

theorem invariant_initial (job : Job) : Invariant job initial where
  locals me :=
    { accounts := ⟨fun _ => rfl, fun _ => rfl, fun _ => rfl⟩
      shape := ⟨List.nodup_nil, rfl⟩ }
  links sender receiver _ := good_initial job sender receiver
  ready me partner takes := by cases takes
  own me := rfl

theorem invariant_step (invariant : Invariant job state) {after : State}
    {move : Move} (inOrder : InOrder job move)
    (moved : step job state move = some after) : Invariant job after := by
  cases move with
  | start me imageList =>
      unfold step at moved
      dsimp only at moved
      split at moved
      · rename_i able
        obtain rfl := Option.some.inj moved
        obtain ⟨-, idle, nodup, -⟩ := able
        refine invariant.modify_heads ?_ (heads_start _ job me imageList)
          (local_start (invariant.locals me) idle nodup)
        intro partner
        rw [idle]
        rfl
      · cases moved
  | act me => exact invariant_act invariant moved
  | deliver sender receiver index => exact invariant.deliver inOrder moved

theorem invariant_reached (reached : Reached job (InOrder job) state) : Invariant job state := by
  refine Transition.Reachable.invariant ?_ ?_ reached
  · rintro start rfl
    exact invariant_initial job
  · rintro before after invariant ⟨move, inOrder, moved⟩
    exact invariant_step invariant inOrder moved

/-! ## The rendezvous -/

theorem Invariant.returned_le (invariant : Invariant job state) (me partner : Nat) :
    (state.images me).returned partner ≤ (state.images partner).started me := by
  by_cases same : partner = me
  · subst same
    have settled := (invariant.locals partner).accounts.returned partner
    omega
  · have returned := (invariant.locals me).returned_le partner
    have taken := invariant.taken_le same
    have notified := (invariant.locals partner).notified_le me
    omega

/-- An image that waits holds nothing back, and does not wait for itself. -/
theorem Invariant.of_waits (invariant : Invariant job state) (waits : state.Waits me partner) :
    partner ≠ me ∧ (state.images me).phase.restores partner = none := by
  have shape := (invariant.locals me).shape.2
  unfold State.Waits at waits
  cases phase : (state.images me).phase <;> rw [phase] at waits shape <;>
    simp only at waits
  · exact ⟨waits.2, rfl⟩
  · exact ⟨(shape.2.2 partner waits).2, rfl⟩

/-- In a quiet state, the partner of a blocked image has not notified it. -/
theorem Invariant.owed_of_blocked (invariant : Invariant job state)
    (blocked : state.Blocked job me) (waits : state.Waits me partner)
    (quiet : ∀ sender receiver, state.inFlight sender receiver = [])
    (matching : (state.images me).taken partner < (state.images partner).started me) :
    owesNotice job partner (state.images partner) me = true := by
  obtain ⟨distinct, free⟩ := invariant.of_waits waits
  have hidden := blocked.2 partner waits
  have arrived := invariant.shows_iff distinct free
  rw [hidden] at arrived
  have all : state.delivered partner me = (state.images partner).notified me := by
    simp [State.delivered, quiet]
  have settled := (invariant.locals partner).accounts.notified me
  by_contra paid
  rw [Bool.not_eq_true] at paid
  rw [paid, Bool.toNat_false, Nat.add_zero] at settled
  rw [all, settled] at arrived
  exact Bool.false_ne_true (arrived.mpr matching)

/-- A blocked image that owes a notice is the higher one of a ping-pong pair. -/
theorem lower_of_blocked (blocked : state.Blocked job me)
    (owes : owesNotice job me (state.images me) partner = true) :
    partner < me ∧ state.Waits me partner := by
  obtain ⟨⟨awaited, waits⟩, -⟩ := blocked
  unfold State.Waits at waits ⊢
  unfold owesNotice at owes
  cases phase : (state.images me).phase <;> rw [phase] at waits owes <;>
    simp only [Bool.false_eq_true] at waits owes
  · rw [Bool.and_eq_true, decide_eq_true_eq] at owes
    exact owes

theorem Invariant.noDeadlock (invariant : Invariant job state) : ¬ state.Deadlocked job := by
  intro deadlock
  obtain ⟨me, blocked⟩ := deadlock.someone
  obtain ⟨partner, waits⟩ := blocked.1
  have owed := invariant.owed_of_blocked blocked waits deadlock.quiet
    (deadlock.matching me partner waits)
  have other : state.Blocked job partner := by
    rcases deadlock.everyone partner with idle | other
    · simp [owesNotice, idle] at owed
    · exact other
  obtain ⟨higher, back⟩ := lower_of_blocked other owed
  have reply := invariant.owed_of_blocked other back deadlock.quiet
    (deadlock.matching partner me back)
  have lower := (lower_of_blocked blocked reply).1
  omega

/-- Two images on two nodes. -/
def apart (algorithm : Algorithm) : Job where
  numImages := 2
  algorithm := algorithm
  supernode := id
  sharedMemRmaBypass := false

theorem reached_of_runAll {condition : Move → Prop} {moves : List Move}
    (met : ∀ move ∈ moves, condition move) {before after : State}
    (reached : Reached job condition before)
    (ran : Transition.runAll (step job) before moves = some after) :
    Reached job condition after := by
  induction moves generalizing before with
  | nil =>
      cases ran
      exact reached
  | cons move moves ih =>
      obtain ⟨next, moved, runs⟩ := Option.bind_eq_some_iff.mp ran
      exact ih
        (fun later member => met later (List.mem_cons_of_mem _ member))
        (reached.tail ⟨move, met move List.mem_cons_self, moved⟩) runs

end OpenUH.Libcaf.SyncImages
