import OpenUH.Libcaf.SyncImagesLink

/-!
# The accounts of one image

Inside a statement an image owes each partner a notification until it is
sent, and itself the partner's until it is taken.  The accounts say that the
history counts differ from the statements begun by exactly what is owed; each
loop head of the four algorithms keeps them.
-/

namespace OpenUH.Libcaf.SyncImages

variable {job : Job} {me : Nat} {image : Image}

/-- Whether the partner is still to be notified in this statement. -/
def owesNotice (job : Job) (me : Nat) (image : Image) (partner : Nat) : Bool :=
  match image.phase with
  | .notifying current rest =>
      if job.algorithm = .pingPong ∧ partner < me then
        partner ∈ image.imageList
      else
        partner ∈ current :: rest ∧ partner ≠ me
  | .scanning _ _ => partner < me && image.checkImages partner
  | .clearing _ _ => partner < me && image.checkImages partner
  | .replying current _ =>
      partner = current || (partner < me && image.checkImages partner)
  | _ => false

/-- Whether the partner's notification is still to be taken. -/
def owesTake (me : Nat) (image : Image) (partner : Nat) : Bool :=
  match image.phase with
  | .idle => false
  | .notifying _ _ => partner ∈ image.imageList ∧ partner ≠ me
  | .polling current rest => partner ∈ current :: rest ∧ partner ≠ me
  | .taking current rest => partner ∈ current :: rest ∧ partner ≠ me
  | .restoring _ rest _ => partner ∈ rest ∧ partner ≠ me
  | .scanning _ _ => image.checkImages partner
  | .clearing _ _ => image.checkImages partner
  | .replying _ _ => image.checkImages partner

/-- What the history counts lack of the statements begun. -/
structure Accounts (image : Image) (notice take inside : Nat → Bool) :
    Prop where
  notified : ∀ partner,
    image.notified partner + (notice partner).toNat = image.started partner
  taken : ∀ partner,
    image.taken partner + (take partner).toNat = image.started partner
  returned : ∀ partner,
    image.returned partner + (inside partner).toNat = image.started partner

/-- The partners of the statement. -/
def insideOf (me : Nat) (imageList : List Nat) (partner : Nat) : Bool :=
  partner ∈ imageList ∧ partner ≠ me

/-- `check_images` after the loop that notifies did a part of the list. -/
def Marked (me : Nat) (image : Image) (done : List Nat) : Prop :=
  ∀ partner, image.checkImages partner = (partner ∈ done ∧ partner ≠ me : Bool)

/-- What the loops know of their lists. -/
def Shape (job : Job) (me : Nat) (image : Image) : Prop :=
  image.imageList.Nodup ∧
  match image.phase with
  | .idle => image.imageList = []
  | .notifying current rest =>
      ∃ done, image.imageList = done ++ current :: rest ∧
        (job.algorithm = .pingPong → Marked me image done)
  | .polling current rest =>
      job.algorithm ≠ .pingPong ∧ (current :: rest).Sublist image.imageList
  | .taking current rest =>
      job.algorithm ≠ .pingPong ∧ current ≠ me ∧ (current :: rest).Sublist image.imageList
  | .restoring current rest _ =>
      job.usesSense me current = true ∧ current ≠ me ∧ (current :: rest).Sublist image.imageList
  | .scanning current rest =>
      job.algorithm = .pingPong ∧ (current :: rest).Sublist image.imageList ∧
        ∀ partner, image.checkImages partner = true → partner ∈ image.imageList ∧ partner ≠ me
  | .clearing current rest =>
      job.algorithm = .pingPong ∧ (current :: rest).Sublist image.imageList ∧
        image.checkImages current = true ∧
        ∀ partner, image.checkImages partner = true → partner ∈ image.imageList ∧ partner ≠ me
  | .replying current rest =>
      job.algorithm = .pingPong ∧ (current :: rest).Sublist image.imageList ∧
        current < me ∧ image.checkImages current = false ∧
        ∀ partner, image.checkImages partner = true → partner ∈ image.imageList ∧ partner ≠ me

/-- The invariant of an image by itself. -/
structure Local (job : Job) (me : Nat) (image : Image) : Prop where
  accounts : Accounts image (owesNotice job me image) (owesTake me image)
    (insideOf me image.imageList)
  shape : Shape job me image

/-! ## Loop heads -/

theorem local_finish
    (accounts : Accounts image (fun _ => false) (fun _ => false) (insideOf me image.imageList)) :
    Local job me (image.finish me) where
  accounts :=
    { notified := accounts.notified
      taken := accounts.taken
      returned := fun partner => by
        have before := accounts.returned partner
        simp only [Image.finish, insideOf, List.not_mem_nil, false_and,
          decide_false, Bool.toNat_false, Nat.add_zero]
        unfold insideOf at before
        split <;> simp_all }
  shape := ⟨List.nodup_nil, rfl⟩

variable {rest : List Nat}

theorem local_pollFrom (other : job.algorithm ≠ .pingPong)
    (nodup : image.imageList.Nodup) (part : rest.Sublist image.imageList)
    (accounts : Accounts image (fun _ => false)
      (fun partner => partner ∈ rest ∧ partner ≠ me)
      (insideOf me image.imageList)) :
    Local job me (image.pollFrom me rest) := by
  cases rest with
  | nil =>
      refine local_finish ⟨accounts.notified, fun partner => ?_, accounts.returned⟩
      simpa using accounts.taken partner
  | cons partner rest =>
      exact ⟨⟨accounts.notified, accounts.taken, accounts.returned⟩, nodup, other, part⟩

/-- What ping-pong knows between two looks at flags. -/
structure Scans (job : Job) (me : Nat) (image : Image) : Prop where
  pingPong : job.algorithm = .pingPong
  nodup : image.imageList.Nodup
  checks : ∀ partner, image.checkImages partner = true → partner ∈ image.imageList ∧ partner ≠ me
  accounts : Accounts image
    (fun partner => partner < me && image.checkImages partner)
    image.checkImages (insideOf me image.imageList)

theorem local_scanAgain (scans : Scans job me image) : Local job me (image.scanAgain me) := by
  have overrun : (∀ other ∈ image.imageList, image.checkImages other = false) →
      Local job me (image.finish me) := by
    intro done
    have unchecked : ∀ partner, image.checkImages partner = false := by
      intro partner
      by_contra checked
      rw [Bool.not_eq_false] at checked
      rw [done partner (scans.checks partner checked).1] at checked
      cases checked
    refine local_finish ⟨fun partner => ?_, fun partner => ?_, scans.accounts.returned⟩
    · simpa [unchecked] using scans.accounts.notified partner
    · simpa [unchecked] using scans.accounts.taken partner
  unfold Image.scanAgain
  split
  · rename_i empty
    exact overrun (by simp [empty])
  · rename_i partner rest list
    split
    · exact ⟨⟨scans.accounts.notified, scans.accounts.taken,
        scans.accounts.returned⟩, scans.nodup, scans.pingPong,
        by rw [list], scans.checks⟩
    · rename_i none
      exact overrun fun other member => by
        by_contra checked
        exact none ⟨other, member, by simpa using checked⟩

theorem local_scanFrom (scans : Scans job me image) (part : rest.Sublist image.imageList) :
    Local job me (image.scanFrom me rest) := by
  cases rest with
  | nil => exact local_scanAgain scans
  | cons partner rest =>
      exact ⟨⟨scans.accounts.notified, scans.accounts.taken,
        scans.accounts.returned⟩, scans.nodup, scans.pingPong, part,
        scans.checks⟩

/-- What is owed at the head of the loop that notifies. -/
def owesBefore (job : Job) (me : Nat) (imageList rest : List Nat) (partner : Nat) : Bool :=
  if job.algorithm = .pingPong ∧ partner < me then
    partner ∈ imageList
  else
    partner ∈ rest ∧ partner ≠ me

theorem local_notifyFrom {done rest : List Nat} (nodup : image.imageList.Nodup)
    (list : image.imageList = done ++ rest)
    (marked : job.algorithm = .pingPong → Marked me image done)
    (accounts : Accounts image (owesBefore job me image.imageList rest)
      (insideOf me image.imageList) (insideOf me image.imageList)) :
    Local job me (image.notifyFrom job me rest) := by
  cases rest with
  | cons partner rest =>
      exact ⟨⟨accounts.notified, accounts.taken, accounts.returned⟩, nodup, done, list, marked⟩
  | nil =>
      rw [List.append_nil] at list
      by_cases pingPong : job.algorithm = .pingPong
      · have checks := marked pingPong
        rw [← list] at checks
        have head : image.notifyFrom job me [] = image.scanAgain me := by
          simp [Image.notifyFrom, pingPong]
        rw [head]
        refine local_scanAgain ⟨pingPong, nodup, fun partner checked => ?_,
          ⟨fun partner => ?_, fun partner => ?_, accounts.returned⟩⟩
        · rw [checks partner] at checked
          simpa using checked
        · have owed := accounts.notified partner
          have equal : (partner < me && image.checkImages partner) =
              owesBefore job me image.imageList [] partner := by
            rw [checks partner]
            unfold owesBefore
            grind
          rw [equal]
          exact owed
        · rw [checks partner]
          exact accounts.taken partner
      · have head : image.notifyFrom job me [] = image.pollFrom me image.imageList := by
          unfold Image.notifyFrom
          split <;> simp_all
        rw [head]
        refine local_pollFrom pingPong nodup (List.Sublist.refl _)
          ⟨fun partner => ?_, accounts.taken, accounts.returned⟩
        have owed := accounts.notified partner
        simpa [owesBefore, pingPong] using owed

/-- A statement begins with everything owed. -/
theorem local_start (locals : Local job me image)
    (idle : image.phase = .idle) {imageList : List Nat} (nodup : imageList.Nodup) :
    Local job me (image.start job me imageList) := by
  have accounts := locals.accounts
  have empty := locals.shape.2
  rw [idle] at empty
  refine local_notifyFrom nodup (List.nil_append _).symm
    (fun _ partner => by simp) ⟨fun partner => ?_, fun partner => ?_,
      fun partner => ?_⟩
  · have settled := accounts.notified partner
    simp only [owesNotice, idle, Bool.toNat_false, Nat.add_zero] at settled
    simp only [owesBefore]
    split <;> split <;> grind
  · have settled := accounts.taken partner
    simp only [owesTake, idle, Bool.toNat_false, Nat.add_zero] at settled
    simp only [insideOf]
    split <;> grind
  · have settled := accounts.returned partner
    simp only [insideOf, empty, List.not_mem_nil, false_and, decide_false,
      Bool.toNat_false, Nat.add_zero] at settled
    simp only [insideOf]
    split <;> grind

/-! ## The accesses of an image -/

/-- The image after the loop that notifies did one partner. -/
def afterNotifying (job : Job) (me : Nat) (image : Image) (partner : Nat)
    (rest : List Nat) : Image :=
  ((if job.notifiesFirst me partner then
    image.noteSent job me partner
  else
    image).mark job me partner).notifyFrom job me rest

theorem bump_apply (count : Nat → Nat) (partner other : Nat) :
    Image.bump count partner other = count other + (other = partner : Bool).toNat := by
  unfold Image.bump
  by_cases same : other = partner
  · subst same
    simp
  · simp [same]

variable {partner : Nat}

/-- A partner is notified in the loop, or stays owed a reply. -/
theorem owed_notifying {imageList rest : List Nat}
    (fresh : partner ∉ rest) (present : partner ∈ imageList) (other : Nat) :
    (job.notifiesFirst me partner && other = partner : Bool).toNat +
        (owesBefore job me imageList rest other).toNat =
      (if job.algorithm = .pingPong ∧ other < me then
        (other ∈ imageList : Bool)
      else
        (other ∈ partner :: rest ∧ other ≠ me : Bool)).toNat := by
  by_cases same : other = partner
  · subst same
    by_cases pingPong : job.algorithm = .pingPong
    · rcases Nat.lt_trichotomy other me with lower | equal | higher
      · simp [Job.notifiesFirst, owesBefore, pingPong, lower, present,
          Nat.not_lt.mpr (Nat.le_of_lt lower)]
      · subst equal
        simp [Job.notifiesFirst, owesBefore, pingPong]
      · have distinct : other ≠ me := by omega
        simp [Job.notifiesFirst, owesBefore, pingPong, higher, fresh, distinct,
          Nat.not_lt.mpr (Nat.le_of_lt higher)]
    · have writes : job.notifiesFirst me other = (me ≠ other : Bool) := by
        unfold Job.notifiesFirst
        split <;> simp_all
      by_cases own : other = me
      · rw [writes]
        simp [owesBefore, pingPong, own]
      · simp [writes, owesBefore, pingPong, own, fresh, Ne.symm own]
  · simp [owesBefore, same]

section

variable (locals : Local job me image)

include locals

theorem local_afterNotifying (here : image.phase = .notifying partner rest) :
    Local job me (afterNotifying job me image partner rest) := by
  obtain ⟨accounts, nodup, shape⟩ := locals
  rw [here] at shape
  obtain ⟨done, list, marked⟩ := shape
  have fresh : partner ∉ done ∧ partner ∉ rest := by
    rw [list] at nodup
    grind
  have present : partner ∈ image.imageList := by simp [list]
  unfold afterNotifying
  generalize noted : (if job.notifiesFirst me partner then
    image.noteSent job me partner else image) = sent
  have sentFields : sent.imageList = image.imageList ∧
      sent.checkImages = image.checkImages ∧
      sent.started = image.started ∧ sent.taken = image.taken ∧
      sent.returned = image.returned ∧
      ∀ other, sent.notified other = image.notified other +
        (job.notifiesFirst me partner && other = partner : Bool).toNat := by
    rw [← noted]
    split
    · rename_i first
      refine ⟨rfl, rfl, rfl, rfl, rfl, fun other => ?_⟩
      rw [first, Bool.true_and]
      exact bump_apply _ _ _
    · rename_i first
      rw [Bool.not_eq_true] at first
      simp [first]
  obtain ⟨sentList, sentChecks, started, taken, returned, notified⟩ := sentFields
  have markFields : (sent.mark job me partner).imageList = sent.imageList ∧
      (sent.mark job me partner).started = sent.started ∧
      (sent.mark job me partner).taken = sent.taken ∧
      (sent.mark job me partner).returned = sent.returned ∧
      (sent.mark job me partner).notified = sent.notified := by
    unfold Image.mark
    split <;> exact ⟨rfl, rfl, rfl, rfl, rfl⟩
  obtain ⟨markList, markStarted, markTaken, markReturned, markNotified⟩ := markFields
  refine @local_notifyFrom job me _ (done ++ [partner]) rest ?_ ?_ ?_ ⟨?_, ?_, ?_⟩
  · rw [markList, sentList]
    exact nodup
  · rw [markList, sentList, list]
    simp
  · intro pingPong other
    have before := marked pingPong other
    simp only [Image.mark, pingPong, sentChecks, Function.update_apply]
    split
    · rename_i same
      subst same
      simp
    · rename_i distinct
      rw [before]
      simp [distinct]
  · intro other
    have before := accounts.notified other
    rw [markNotified, markStarted, markList, notified, started, sentList,
      ← before, Nat.add_assoc, owed_notifying fresh.2 present]
    simp only [owesNotice, here]
  · intro other
    have before := accounts.taken other
    rw [markTaken, markStarted, markList, taken, started, sentList, ← before]
    simp only [owesTake, here, insideOf]
  · intro other
    rw [markReturned, markStarted, markList, returned, started, sentList]
    exact accounts.returned other

theorem local_polling_self (here : image.phase = .polling me rest) :
    Local job me (image.pollFrom me rest) := by
  obtain ⟨accounts, nodup, shape⟩ := locals
  rw [here] at shape
  obtain ⟨other, part⟩ := shape
  refine local_pollFrom other nodup ((List.sublist_cons_self _ _).trans part)
    ⟨fun partner => ?_, fun partner => ?_, accounts.returned⟩
  · simpa [owesNotice, here] using accounts.notified partner
  · have before := accounts.taken partner
    simp only [owesTake, here] at before
    grind

theorem local_polling (here : image.phase = .polling partner rest) (distinct : partner ≠ me) :
    Local job me { image with phase := .taking partner rest } := by
  obtain ⟨accounts, nodup, shape⟩ := locals
  rw [here] at shape
  exact ⟨⟨fun other => by
      simpa [owesNotice, here] using accounts.notified other,
    fun other => by
      simpa [owesTake, here] using accounts.taken other,
    accounts.returned⟩, nodup, shape.1, distinct, shape.2⟩

/-- What is owed once the partner at the head of the list is taken. -/
theorem accounts_take (here : image.phase = .taking partner rest) :
    Accounts (image.take job me partner) (fun _ => false)
      (fun other => other ∈ rest ∧ other ≠ me)
      (insideOf me image.imageList) := by
  obtain ⟨accounts, nodup, shape⟩ := locals
  rw [here] at shape
  obtain ⟨-, distinct, part⟩ := shape
  have fresh : partner ∉ rest := (List.nodup_cons.mp (part.nodup nodup)).1
  refine ⟨fun other => ?_, fun other => ?_, accounts.returned⟩
  · have before := accounts.notified other
    simp only [owesNotice, here] at before
    exact before
  · have before := accounts.taken other
    simp only [owesTake, here] at before
    change Image.bump image.taken partner other + _ = image.started other
    rw [bump_apply]
    grind

theorem local_taking (here : image.phase = .taking partner rest) :
    Local job me ((image.take job me partner).pollFrom me rest) := by
  have accounts := accounts_take locals here
  obtain ⟨-, nodup, shape⟩ := locals
  rw [here] at shape
  exact local_pollFrom shape.1 nodup ((List.sublist_cons_self _ _).trans shape.2.2) accounts

theorem local_holding (here : image.phase = .taking partner rest)
    (senses : job.usesSense me partner = true) (x : Int) :
    Local job me
      { image.take job me partner with
        phase := .restoring partner rest x } := by
  have accounts := accounts_take locals here
  obtain ⟨-, nodup, shape⟩ := locals
  rw [here] at shape
  exact ⟨⟨accounts.notified, accounts.taken, accounts.returned⟩, nodup, senses, shape.2⟩

theorem local_restoring {x : Int}
    (here : image.phase = .restoring partner rest x) (value : Nat → Int) :
    Local job me (({ image with value := value } : Image).pollFrom me rest) := by
  obtain ⟨accounts, nodup, shape⟩ := locals
  rw [here] at shape
  obtain ⟨senses, -, part⟩ := shape
  have other : job.algorithm ≠ .pingPong := by
    intro pingPong
    simp [Job.usesSense, pingPong] at senses
  refine local_pollFrom other nodup ((List.sublist_cons_self _ _).trans part)
    ⟨fun partner => ?_, fun partner => ?_, accounts.returned⟩
  · simpa [owesNotice, here] using accounts.notified partner
  · simpa [owesTake, here] using accounts.taken partner

theorem scans_of_scanning (here : image.phase = .scanning partner rest) : Scans job me image := by
  obtain ⟨accounts, nodup, shape⟩ := locals
  rw [here] at shape
  exact ⟨shape.1, nodup, shape.2.2,
    ⟨fun other => by simpa [owesNotice, here] using accounts.notified other,
      fun other => by simpa [owesTake, here] using accounts.taken other,
      accounts.returned⟩⟩

theorem local_scanning (here : image.phase = .scanning partner rest) :
    Local job me (image.scanFrom me rest) := by
  have part := locals.shape.2
  rw [here] at part
  exact local_scanFrom (scans_of_scanning locals here) ((List.sublist_cons_self _ _).trans part.2.1)

theorem local_found
    (here : image.phase = .scanning partner rest) (checked : image.checkImages partner = true) :
    Local job me { image with phase := .clearing partner rest } := by
  have scans := scans_of_scanning locals here
  have part := locals.shape.2
  rw [here] at part
  exact ⟨⟨scans.accounts.notified, scans.accounts.taken,
    scans.accounts.returned⟩, scans.nodup, scans.pingPong, part.2.1, checked,
    scans.checks⟩

end

/-- The image after ping-pong cleared the flag of a partner. -/
def cleared (image : Image) (partner : Nat) : Image :=
  { image with
    value := Function.update image.value partner 0
    checkImages := Function.update image.checkImages partner false
    taken := Image.bump image.taken partner }

theorem local_clearing (locals : Local job me image) (here : image.phase = .clearing partner rest) :
    Local job me
      (if partner < me then
        { cleared image partner with phase := .replying partner rest }
      else
        (cleared image partner).scanFrom me rest) := by
  obtain ⟨accounts, nodup, shape⟩ := locals
  rw [here] at shape
  obtain ⟨pingPong, part, checked, checks⟩ := shape
  have taken : ∀ other, (cleared image partner).taken other +
      ((cleared image partner).checkImages other).toNat = image.started other := by
    intro other
    have before := accounts.taken other
    simp only [owesTake, here] at before
    change Image.bump image.taken partner other +
      (Function.update image.checkImages partner false other).toNat = _
    rw [bump_apply, Function.update_apply]
    grind
  have later : ∀ other, (cleared image partner).checkImages other = true →
      other ∈ image.imageList ∧ other ≠ me := by
    intro other
    change Function.update image.checkImages partner false other = true → _
    rw [Function.update_apply]
    split
    · exact fun impossible => by cases impossible
    · exact checks other
  have notified := accounts.notified
  simp only [owesNotice, here] at notified
  split
  · rename_i lower
    refine ⟨⟨fun other => ?_, taken, accounts.returned⟩, nodup, pingPong, part, lower, ?_, later⟩
    · change image.notified other + (decide (other = partner) ||
        (decide (other < me) && Function.update image.checkImages partner false other)).toNat =
        image.started other
      rw [← notified other, Function.update_apply]
      by_cases same : other = partner
      · subst same
        simp [checked, lower]
      · simp [same]
    · change Function.update image.checkImages partner false partner = false
      simp
  · rename_i upper
    refine local_scanFrom ⟨pingPong, nodup, later, ?_, taken,
      accounts.returned⟩ ((List.sublist_cons_self _ _).trans part)
    intro other
    change image.notified other + (decide (other < me) &&
      Function.update image.checkImages partner false other).toNat =
      image.started other
    rw [← notified other, Function.update_apply]
    by_cases same : other = partner
    · subst same
      simp [upper]
    · simp [same]

theorem local_replying (locals : Local job me image) (here : image.phase = .replying partner rest) :
    Local job me ((image.noteSent job me partner).scanFrom me rest) := by
  obtain ⟨accounts, nodup, shape⟩ := locals
  rw [here] at shape
  obtain ⟨pingPong, part, lower, unchecked, checks⟩ := shape
  refine local_scanFrom ⟨pingPong, nodup, checks, fun other => ?_,
    fun other => ?_, accounts.returned⟩
    ((List.sublist_cons_self _ _).trans part)
  · have before := accounts.notified other
    simp only [owesNotice, here] at before
    change Image.bump image.notified partner other + (decide (other < me) &&
      image.checkImages other).toNat = image.started other
    rw [bump_apply]
    grind
  · have before := accounts.taken other
    simp only [owesTake, here] at before
    exact before

end OpenUH.Libcaf.SyncImages
