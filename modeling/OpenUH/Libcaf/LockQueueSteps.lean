import OpenUH.Libcaf.LockQueue

/-!
# Steps on the queue of one lock

What each step of a lock or unlock call, and each write that lands, does to
the chains of a lock.
-/

namespace OpenUH.Libcaf.CoarrayLock

open Foundation

variable {view after : View} {main : List Int} {asides : List (List Int)}
  {me req : Int}

/-! ## What a step leaves as it was -/

/-- A step leaves an image as it was. -/
structure Same (view after : View) (me : Int) : Prop where
  item : after.item me = view.item me
  stage : after.stage me = view.stage me
  request : after.request me = view.request me
  mail : after.mail me = view.mail me

namespace Same

variable (same : Same view after me)
include same

theorem naming : after.naming me = view.naming me := by
  unfold View.naming
  rw [same.item]

theorem flag : after.Flag me ↔ view.Flag me := by
  unfold View.Flag
  rw [same.request]

theorem active : after.Active me ↔ view.Active me := by
  unfold View.Active
  rw [same.item, same.stage]

theorem owner : after.Owner me ↔ view.Owner me := by
  unfold View.Owner
  rw [same.stage, same.mail, same.flag]

theorem opened : after.Open me ↔ view.Open me := by
  unfold View.Open
  rw [same.request, same.mail]

theorem settled : after.Settled me ↔ view.Settled me := by
  unfold View.Settled
  rw [same.stage, same.request, same.mail]

theorem sound (before : view.Sound me) : after.Sound me where
  fits := by
    rw [same.item]
    exact before.fits
  backed := by
    rw [same.item, same.request]
    exact before.backed
  staged := by
    rw [same.item, same.stage]
    exact before.staged
  mailNodup := by
    rw [same.mail]
    exact before.mailNodup
  unlock := by
    rw [same.mail, same.stage, same.flag]
    exact before.unlock
  settled := same.settled.mpr before.settled

end Same

/-- Whether one is behind another is a matter of these. -/
theorem next_congr {a b : Int} (item : after.item a = view.item a)
    (request : after.request a = view.request a)
    (mail : after.mail a = view.mail a) (itemOf : after.item b = view.item b)
    (stageOf : after.stage b = view.stage b) (requestOf : after.request b = view.request b) :
    after.Next a b ↔ view.Next a b := by
  have naming : after.naming a = view.naming a := by
    unfold View.naming
    rw [item]
  have flag : after.Flag b ↔ view.Flag b := by
    unfold View.Flag
    rw [requestOf]
  unfold View.Next
  rw [request, mail, naming, stageOf, itemOf, flag]

/-- Whether one is behind another where both are as they were. -/
theorem Same.next {a b : Int} (first : Same view after a)
    (second : Same view after b) : after.Next a b ↔ view.Next a b :=
  next_congr first.item first.request first.mail second.item second.stage second.request

/-- The stages at which an image is behind nobody. -/
def Stage.Ahead : Option Stage → Prop
  | none | some .comparing | some .resetting | some (.awaitingDone none)
  | some (.awaitingImage none) | some (.handing none)
  | some (.swapping _) | some (.restoring _) | some .freeing => True
  | _ => False

theorem not_next_of_stage {a : Int} (free : Stage.Ahead (view.stage me)) : ¬view.Next a me := by
  rintro ⟨request, -, next⟩
  revert free next
  cases view.stage me with
  | none => exact fun _ next => next
  | some stage => cases stage <;> simp only [Stage.Ahead] <;> grind

/-- A step of an image that leaves its request but for the flag. -/
structure Moved (view after : View) (me : Int)
    (request changed : LockRequest) : Prop where
  others : ∀ other, other ≠ me → Same view after other
  item : after.item me = view.item me
  mail : after.mail me = view.mail me
  found : view.request me = some request
  left : after.request me = some changed
  image : changed.image = request.image
  ofst : changed.ofst = request.ofst
  done : changed.done = request.done

namespace Moved

variable {request changed : LockRequest}
  (moved : Moved view after me request changed)
include moved

theorem naming (other : Int) : after.naming other = view.naming other := by
  unfold View.naming
  by_cases here : other = me
  · rw [here, moved.item]
  · rw [(moved.others other here).item]

theorem blank {letters : List Part} (blank : Blank request letters) :
    Blank changed letters where
  image := moved.image.trans blank.image
  ofst := moved.ofst.trans blank.ofst
  done := moved.done.trans blank.done
  only := blank.only

theorem linked {letters : List Part} {image ofst : Int}
    (linked : Linked request letters image ofst) :
    Linked changed letters image ofst where
  imagePart := by
    rw [moved.image]
    exact linked.imagePart
  ofstPart := by
    rw [moved.ofst]
    exact linked.ofstPart
  donePart := by
    rw [moved.done]
    exact linked.donePart
  only := linked.only

theorem opened {other : Int} (opened : view.Open other) : after.Open other := by
  by_cases here : other = me
  · subst here
    obtain ⟨own, isOwn, isBlank⟩ := opened
    obtain rfl := Option.some.inj (moved.found.symm.trans isOwn)
    exact ⟨changed, moved.left, by rw [moved.mail]; exact moved.blank isBlank⟩
  · exact (moved.others other here).opened.mpr opened

/-- What is behind somebody else stays so. -/
theorem next {a b : Int} (apart : b ≠ me) (next : view.Next a b) : after.Next a b := by
  have second := moved.others b apart
  by_cases first : a = me
  · subst first
    obtain ⟨own, isOwn, below⟩ := next
    obtain rfl := Option.some.inj (moved.found.symm.trans isOwn)
    refine ⟨changed, moved.left, ?_⟩
    rw [second.stage, second.item, second.flag, moved.mail, moved.naming]
    have blank : Blank request (view.mail a) → Blank changed (view.mail a) := moved.blank
    have linked : ∀ image ofst, Linked request (view.mail a) image ofst →
        Linked changed (view.mail a) image ofst := fun _ _ => moved.linked
    revert below
    cases view.stage b with
    | none => exact id
    | some stage =>
        cases stage with
        | polling =>
            rintro ⟨⟨ofst, isOfst, isLinked⟩, flag⟩
            exact ⟨⟨ofst, isOfst, linked _ _ isLinked⟩, flag⟩
        | linking _ =>
            rintro ⟨same, isBlank, flag⟩
            exact ⟨same, blank isBlank, flag⟩
        | marking _ =>
            rintro ⟨same, isBlank⟩
            exact ⟨same, blank isBlank⟩
        | awaitingDone u | awaitingImage u | handing u =>
            cases u with
            | none => exact id
            | some _ =>
                rintro ⟨same, isBlank⟩
                exact ⟨same, blank isBlank⟩
        | _ => exact id
  · exact ((moved.others a first).next second).mpr next

theorem sound {other : Int} (own : after.Sound me)
    (before : view.Sound other) : after.Sound other := by
  by_cases here : other = me
  · exact here ▸ own
  · exact (moved.others other here).sound before

theorem active (own : view.Active me) (ownAfter : after.Active me)
    (other : Int) : after.Active other ↔ view.Active other := by
  by_cases here : other = me
  · exact here ▸ ⟨fun _ => own, fun _ => ownAfter⟩
  · exact (moved.others other here).active

end Moved

/-- A step of an image that writes to the request of another. -/
structure Wrote (view after : View) (me target : Int) (parts : List Part) :
    Prop where
  others : ∀ other, other ≠ me → other ≠ target → Same view after other
  apart : target ≠ me
  item : after.item = view.item
  request : after.request = view.request
  stage : after.stage target = view.stage target
  mail : after.mail me = view.mail me
  written : after.mail target = view.mail target ++ parts

namespace Wrote

variable {target : Int} {parts : List Part}
  (wrote : Wrote view after me target parts)
include wrote

theorem stage_ne {other : Int} (apart : other ≠ me) : after.stage other = view.stage other := by
  by_cases here : other = target
  · exact here ▸ wrote.stage
  · exact (wrote.others other apart here).stage

theorem mail_ne {other : Int} (apart : other ≠ target) : after.mail other = view.mail other := by
  by_cases here : other = me
  · exact here ▸ wrote.mail
  · exact (wrote.others other here apart).mail

theorem naming (other : Int) : after.naming other = view.naming other := by
  unfold View.naming
  rw [wrote.item]

theorem flag (other : Int) : after.Flag other ↔ view.Flag other := by
  unfold View.Flag
  rw [wrote.request]

theorem active {other : Int} (apart : other ≠ me) : after.Active other ↔ view.Active other := by
  unfold View.Active
  rw [wrote.item, wrote.stage_ne apart]

theorem next {a b : Int} (first : a ≠ target) (second : b ≠ me) : after.Next a b ↔ view.Next a b :=
  next_congr (by rw [wrote.item]) (by rw [wrote.request])
    (wrote.mail_ne first) (by rw [wrote.item]) (wrote.stage_ne second)
    (by rw [wrote.request])

theorem opened {other : Int} (apart : other ≠ target) : after.Open other ↔ view.Open other := by
  unfold View.Open
  rw [wrote.request, wrote.mail_ne apart]

/-- Who owns the lock does not lose it by a write. -/
theorem owner {other : Int} (apart : other ≠ me) (owner : view.Owner other) :
    after.Owner other := by
  unfold View.Owner at owner ⊢
  rw [wrote.stage_ne apart, wrote.flag]
  by_cases here : other = target
  · subst here
    rw [wrote.written]
    split at owner
    · trivial
    · trivial
    · trivial
    · trivial
    · trivial
    · trivial
    · exact fun flag => List.mem_append_left _ (owner flag)
    · exact owner
  · rw [wrote.mail_ne here]
    exact owner

theorem sound {other : Int} (own : after.Sound me) (its : after.Sound target)
    (before : view.Sound other) : after.Sound other := by
  by_cases here : other = me
  · exact here ▸ own
  · by_cases there : other = target
    · exact there ▸ its
    · exact (wrote.others other here there).sound before

end Wrote

/-! ## Joining and leaving -/

namespace Queue

variable (queue : Queue view main asides)
include queue

section

variable (others : ∀ other, other ≠ me → Same view after other)
include others

theorem sound_after (sound : after.Sound me) (other : Int) : after.Sound other := by
  by_cases here : other = me
  · exact here ▸ sound
  · exact (others other here).sound (queue.sound other)

theorem restoring_after (stage : ∀ v, after.stage me ≠ some (.restoring v)) (other : Int)
    (v : LockWord) (restores : after.stage other = some (.restoring v)) :
    ∃ chain ∈ asides, chain.head? = some other := by
  by_cases here : other = me
  · exact absurd (here ▸ restores) (stage v)
  · exact queue.restoring other v ((others other here).stage ▸ restores)

/-- Who is in the queue stays as it was. -/
theorem kept (inactive : ¬view.Active me) {other : Int}
    (member : other ∈ (main :: asides).flatten) : Same view after other :=
  others other fun here => inactive (here ▸ (queue.members other).mp member)

theorem chain_kept (inactive : ¬view.Active me) :
    ∀ chain ∈ main :: asides, ∀ other ∈ chain, Same view after other :=
  fun _ inside _ member => queue.kept others inactive (List.mem_flatten_of_mem inside member)

end

/-- A chain aside stays aside. -/
theorem aside_after {chain : List Int} (inside : chain ∈ asides)
    (kept : ∀ other ∈ chain, Same view after other) :
    ∃ first last, chain.head? = some first ∧ chain.getLast? = some last ∧
      after.stage first = some (.restoring (after.naming last)) := by
  obtain ⟨first, last, isFirst, isLast, restores⟩ := queue.aside chain inside
  refine ⟨first, last, isFirst, isLast, ?_⟩
  rw [(kept first (List.mem_of_mem_head? isFirst)).stage,
    (kept last (List.mem_of_getLast? isLast)).naming]
  exact restores

/-- A step of an image that is not in the queue and stays out of it. -/
theorem idle (others : ∀ other, other ≠ me → Same view after other)
    (word : after.word = view.word) (inactive : ¬view.Active me)
    (outside : ¬after.Active me) (sound : after.Sound me)
    (stage : ∀ v, after.stage me ≠ some (.restoring v)) :
    Queue after main asides := by
  have inQueue := queue.chain_kept others inactive
  refine ⟨queue.sound_after others sound, queue.nodup, ?_, ?_, ?_, ?_, ?_,
    fun chain inside => queue.aside_after inside (inQueue chain (List.mem_cons_of_mem main inside)),
    queue.restoring_after others stage, ?_⟩
  · intro other
    by_cases here : other = me
    · rw [here, queue.members me]
      exact ⟨fun active => absurd active inactive,
        fun active => absurd active outside⟩
    · rw [queue.members other, (others other here).active]
  · rw [word, queue.word]
    cases isLast : main.getLast? with
    | none => rfl
    | some last =>
        exact (inQueue main List.mem_cons_self last (List.mem_of_getLast? isLast)).naming.symm
  · intro a b adjoins
    exact ((queue.kept others inactive adjoins.mem_left).next
      (queue.kept others inactive adjoins.mem_right)).mpr (queue.chained a b adjoins)
  · intro chain inside last isLast
    exact (inQueue chain inside last (List.mem_of_getLast? isLast)).opened.mpr
      (queue.opened chain inside last isLast)
  · intro first isFirst
    exact (inQueue main List.mem_cons_self first (List.mem_of_mem_head? isFirst)).owner.mpr
      (queue.owner first isFirst)
  · intro other member
    by_cases here : other = me
    · subst here
      have polls := (sound.unlock member).1
      refine absurd ⟨?_, ?_, ?_⟩ outside
      · exact sound.staged (by rw [polls]; exact Option.some_ne_none _)
      · simp [polls]
      · simp [polls]
    · exact queue.unlocks other ((others other here).mail ▸ member)

/-- An image puts its request on the lock word. -/
theorem join (others : ∀ other, other ≠ me → Same view after other)
    (word : after.word = after.naming me) (inactive : ¬view.Active me)
    (active : after.Active me) (sound : after.Sound me)
    (stage : ∀ v, after.stage me ≠ some (.restoring v))
    (unmailed : .unlock ∉ after.mail me) (opened : after.Open me)
    (owner : main = [] → after.Owner me) (next : ∀ last ∈ main.getLast?, after.Next last me) :
    Queue after (main ++ [me]) asides := by
  have inQueue := queue.chain_kept others inactive
  have outside : me ∉ (main :: asides).flatten := fun member =>
    inactive ((queue.members me).mp member)
  have reordered : ((main ++ [me]) :: asides).flatten.Perm (me :: (main :: asides).flatten) := by
    simp only [List.flatten_cons, List.append_assoc, List.singleton_append]
    exact List.perm_middle
  refine ⟨queue.sound_after others sound,
    reordered.nodup_iff.mpr (List.nodup_cons.mpr ⟨outside, queue.nodup⟩), ?_, ?_, ?_, ?_, ?_,
    fun chain inside => queue.aside_after inside (inQueue chain (List.mem_cons_of_mem main inside)),
    queue.restoring_after others stage, ?_⟩
  · intro other
    rw [reordered.mem_iff, List.mem_cons, queue.members other]
    by_cases here : other = me
    · subst here
      exact ⟨fun _ => active, fun _ => .inl rfl⟩
    · rw [(others other here).active]
      exact ⟨fun found => found.resolve_left here, .inr⟩
  · simpa using word
  · intro a b adjoins
    rcases adjoins.append with found | ⟨last, head⟩
    · have adjoins : Adjoins (main :: asides) a b := by
        obtain ⟨chain, inside, front, rest, split⟩ := found
        rcases List.mem_cons.mp inside with rfl | later
        · exact ⟨chain, List.mem_cons_self, front, rest, split⟩
        · rcases List.mem_cons.mp later with rfl | inAsides
          · have short := congrArg List.length split
            simp only [List.length_append, List.length_cons, List.length_nil] at short
            omega
          · exact ⟨chain, List.mem_cons_of_mem _ inAsides, front, rest, split⟩
      exact ((queue.kept others inactive adjoins.mem_left).next
        (queue.kept others inactive adjoins.mem_right)).mpr (queue.chained a b adjoins)
    · obtain rfl : me = b := Option.some.inj head
      exact next a last
  · intro chain inside last isLast
    rcases List.mem_cons.mp inside with rfl | later
    · obtain rfl : me = last := by simpa using isLast
      exact opened
    · have listed := List.mem_cons_of_mem main later
      exact (inQueue chain listed last (List.mem_of_getLast? isLast)).opened.mpr
        (queue.opened chain listed last isLast)
  · intro first isFirst
    cases main with
    | nil =>
        obtain rfl : me = first := Option.some.inj isFirst
        exact owner rfl
    | cons head tail =>
        exact (inQueue _ List.mem_cons_self first (List.mem_of_mem_head? isFirst)).owner.mpr
          (queue.owner first isFirst)
  · intro other member
    by_cases here : other = me
    · exact absurd (here ▸ member) unmailed
    · have head := queue.unlocks other ((others other here).mail ▸ member)
      rw [List.head?_append, head]
      rfl

/-- The owner leaves, and nobody else is in the queue. -/
theorem drain {owner : Int} (alone : main = [owner])
    (others : ∀ other, other ≠ owner → Same view after other)
    (word : after.word = LockWord.unset) (inactive : ¬after.Active owner)
    (sound : after.Sound owner) (stage : ∀ v, after.stage owner ≠ some (.restoring v))
    (unmailed : .unlock ∉ after.mail owner) : Queue after [] asides := by
  subst alone
  have distinct := List.nodup_cons.mp queue.nodup
  have apart : ∀ other ∈ asides.flatten, other ≠ owner := by
    rintro other member rfl
    exact distinct.1 member
  have kept : ∀ chain ∈ asides, ∀ other ∈ chain, Same view after other :=
    fun chain inside other member =>
      others other (apart other (List.mem_flatten_of_mem inside member))
  refine ⟨queue.sound_after others sound, distinct.2, ?_, word, ?_, ?_, ?_,
    fun chain inside => queue.aside_after inside (kept chain inside),
    queue.restoring_after others stage, ?_⟩
  · intro other
    have members := queue.members other
    rw [show ([owner] :: asides).flatten = owner :: asides.flatten from rfl,
      List.mem_cons] at members
    rw [show ([] :: asides).flatten = asides.flatten from rfl]
    by_cases here : other = owner
    · subst here
      exact ⟨fun member => absurd rfl (apart _ member),
        fun active => absurd active inactive⟩
    · rw [(others other here).active, ← members]
      exact ⟨.inr, fun found => found.resolve_left here⟩
  · rintro a b ⟨chain, inside, front, rest, split⟩
    rcases List.mem_cons.mp inside with rfl | later
    · simp at split
    · exact ((kept chain later a (by simp [split])).next
        (kept chain later b (by simp [split]))).mpr
          (queue.chained a b ⟨chain, List.mem_cons_of_mem _ later, front, rest, split⟩)
  · intro chain inside last isLast
    rcases List.mem_cons.mp inside with rfl | later
    · cases isLast
    · exact (kept chain later last (List.mem_of_getLast? isLast)).opened.mpr
        (queue.opened chain (List.mem_cons_of_mem _ later) last isLast)
  · rintro first ⟨⟩
  · intro other member
    by_cases here : other = owner
    · exact absurd (here ▸ member) unmailed
    · have head := queue.unlocks other ((others other here).mail ▸ member)
      exact absurd (Option.some.inj head).symm here

end Queue

/-! ## Steps of an image in the queue -/

namespace Queue

variable (queue : Queue view main asides)
include queue

/-- An image on the lock goes on where it is. -/
theorem restage {request changed : LockRequest} (moved : Moved view after me request changed)
    (word : after.word = view.word) (active : view.Active me)
    (activeAfter : after.Active me) (sound : after.Sound me)
    (next : ∀ a, a ≠ me → view.Next a me → after.Next a me)
    (owner : main.head? = some me → after.Owner me)
    (idle : ∀ v, view.stage me ≠ some (.restoring v))
    (idleAfter : ∀ v, after.stage me ≠ some (.restoring v)) :
    Queue after main asides := by
  refine ⟨fun other => moved.sound sound (queue.sound other), queue.nodup, ?_,
    ?_, ?_, ?_, ?_, ?_, ?_, ?_⟩
  · intro other
    rw [queue.members other, moved.active active activeAfter]
  · rw [word, queue.word]
    cases main.getLast? with
    | none => rfl
    | some last => exact (moved.naming last).symm
  · intro a b adjoins
    have holds := queue.chained a b adjoins
    by_cases here : b = me
    · subst here
      exact next a (adjoins.ne queue.nodup) holds
    · exact moved.next here holds
  · intro chain inside last isLast
    exact moved.opened (queue.opened chain inside last isLast)
  · intro first isFirst
    by_cases here : first = me
    · subst here
      exact owner isFirst
    · exact (moved.others first here).owner.mpr (queue.owner first isFirst)
  · intro chain inside
    obtain ⟨first, last, isFirst, isLast, stage⟩ := queue.aside chain inside
    refine ⟨first, last, isFirst, isLast, ?_⟩
    have apart : first ≠ me := by
      rintro rfl
      exact idle _ stage
    rw [(moved.others first apart).stage, moved.naming]
    exact stage
  · intro other v stage
    by_cases here : other = me
    · subst here
      exact absurd stage (idleAfter v)
    · exact queue.restoring other v ((moved.others other here).stage ▸ stage)
  · intro other member
    by_cases here : other = me
    · subst here
      exact queue.unlocks other (moved.mail ▸ member)
    · exact queue.unlocks other ((moved.others other here).mail ▸ member)

/-- A release takes the whole chain off the word. -/
theorem takeOff {request : LockRequest} (moved : Moved view after me request request)
    (head : main.head? = some me) (word : after.word = LockWord.unset)
    (stage : after.stage me = some (.restoring view.word)) (sound : after.Sound me)
    (idle : ∀ v, view.stage me ≠ some (.restoring v)) (unmailed : .unlock ∉ view.mail me) :
    Queue after [] (main :: asides) := by
  have active := queue.active_head head
  have activeAfter : after.Active me := by
    refine ⟨?_, ?_, ?_⟩
    · rw [moved.item]
      exact active.1
    · simp [stage]
    · simp [stage]
  have same : ([] :: main :: asides).flatten = (main :: asides).flatten := rfl
  refine ⟨fun other => moved.sound sound (queue.sound other), ?_, ?_, ?_, ?_, ?_, ?_, ?_, ?_, ?_⟩
  · rw [same]
    exact queue.nodup
  · intro other
    rw [same, queue.members other, moved.active active activeAfter]
  · exact word
  · rintro a b ⟨chain, inside, front, rest, split⟩
    have adjoins : Adjoins (main :: asides) a b := by
      rcases List.mem_cons.mp inside with rfl | later
      · simp at split
      · exact ⟨chain, later, front, rest, split⟩
    refine moved.next ?_ (queue.chained a b adjoins)
    rintro rfl
    exact Adjoins.ne_head queue.nodup List.mem_cons_self head adjoins
  · intro chain inside last isLast
    rcases List.mem_cons.mp inside with rfl | later
    · cases isLast
    · exact moved.opened (queue.opened chain later last isLast)
  · rintro first ⟨⟩
  · intro chain inside
    rcases List.mem_cons.mp inside with rfl | later
    · obtain ⟨last, isLast⟩ : ∃ last, chain.getLast? = some last := by
        cases chain with
        | nil => cases head
        | cons first tail => exact ⟨_, List.getLast?_eq_some_getLast (by simp)⟩
      refine ⟨me, last, head, isLast, ?_⟩
      rw [stage, queue.word, isLast, Option.elim_some, moved.naming]
    · obtain ⟨first, last, isFirst, isLast, restores⟩ :=
        queue.aside chain later
      refine ⟨first, last, isFirst, isLast, ?_⟩
      have apart : first ≠ me := by
        rintro rfl
        exact idle _ restores
      rw [(moved.others first apart).stage, moved.naming]
      exact restores
  · intro other v restores
    by_cases here : other = me
    · subst here
      exact ⟨main, List.mem_cons_self, head⟩
    · obtain ⟨chain, inside, isHead⟩ := queue.restoring other v
        ((moved.others other here).stage ▸ restores)
      exact ⟨chain, List.mem_cons_of_mem _ inside, isHead⟩
  · intro other member
    by_cases here : other = me
    · subst here
      exact absurd (moved.mail ▸ member) unmailed
    · have isHead := queue.unlocks other ((moved.others other here).mail ▸ member)
      exact absurd (Option.some.inj (isHead.symm.trans head)) here

/-- A release puts back the chain it took off, behind those that came since. -/
theorem putBack {request : LockRequest} {chain : List Int}
    (moved : Moved view after me request request) (inside : chain ∈ asides)
    (head : chain.head? = some me) (word : view.stage me = some (.restoring after.word))
    (stage : after.stage me = some (.awaitingDone
      (if view.word.image ≠ 0 then some view.word else none)))
    (sound : after.Sound me) :
    Queue after (main ++ chain) (asides.erase chain) := by
  have inQueue := List.mem_cons_of_mem main inside
  have active := queue.active inQueue (List.mem_of_mem_head? head)
  have activeAfter : after.Active me := by
    refine ⟨?_, ?_, ?_⟩
    · rw [moved.item]
      exact active.1
    · simp [stage]
    · simp [stage]
  have reordered : ((main ++ chain) :: asides.erase chain).flatten.Perm
      (main :: asides).flatten := by
    have moved := (List.perm_cons_erase inside).flatten
    simp only [List.flatten_cons, List.append_assoc] at moved ⊢
    exact moved.symm.append_left main
  have later : ∀ other ∈ asides.erase chain, other ∈ main :: asides :=
    fun other member => List.mem_cons_of_mem _ (List.mem_of_mem_erase member)
  obtain ⟨first, last, isFirst, isLast, restores⟩ := queue.aside chain inside
  obtain rfl := Option.some.inj (isFirst.symm.trans head)
  have isNaming : after.word = view.naming last := by
    rw [word] at restores
    exact Stage.restoring.inj (Option.some.inj restores)
  refine ⟨fun other => moved.sound sound (queue.sound other),
    reordered.nodup_iff.mpr queue.nodup, ?_, ?_, ?_, ?_, ?_, ?_, ?_, ?_⟩
  · intro other
    rw [reordered.mem_iff, queue.members other, moved.active active activeAfter]
  · rw [List.getLast?_append, isLast]
    exact isNaming.trans (moved.naming last).symm
  · intro a b adjoins
    rcases adjoins.append with found | ⟨isEnd, isHead⟩
    · have adjoins : Adjoins (main :: asides) a b := by
        refine found.mono fun other member => ?_
        rcases List.mem_cons.mp member with rfl | member
        · exact List.mem_cons_self
        · rcases List.mem_cons.mp member with rfl | member
          · exact inQueue
          · exact later other member
      refine moved.next ?_ (queue.chained a b adjoins)
      rintro rfl
      exact Adjoins.ne_head queue.nodup inQueue head adjoins
    · obtain rfl := Option.some.inj (head.symm.trans isHead)
      have activeEnd := queue.active List.mem_cons_self (List.mem_of_getLast? isEnd)
      obtain ⟨req, item⟩ := Option.ne_none_iff_exists'.mp activeEnd.1
      have isWord : view.word = view.naming a := by
        rw [queue.word, isEnd, Option.elim_some]
      have positive := ((queue.sound a).fits req item).image_pos
      have image : view.word.image = a := by
        rw [isWord]
        exact queue.naming_image activeEnd
      have nonzero : view.word.image ≠ 0 := by omega
      obtain ⟨own, isOwn, isBlank⟩ := moved.opened (queue.opened main List.mem_cons_self a isEnd)
      refine ⟨own, isOwn, ?_⟩
      rw [stage, if_pos nonzero]
      exact ⟨isWord.trans (moved.naming a).symm, isBlank⟩
  · intro other member tip isTip
    refine moved.opened ?_
    rcases List.mem_cons.mp member with rfl | member
    · rw [List.getLast?_append, isLast] at isTip
      obtain rfl : last = tip := Option.some.inj isTip
      exact queue.opened chain inQueue last isLast
    · exact queue.opened other (later other member) tip isTip
  · intro owner isOwner
    cases main with
    | nil =>
        rw [List.nil_append] at isOwner
        obtain rfl := Option.some.inj (head.symm.trans isOwner)
        have unset : view.word.image = 0 := by
          rw [queue.word]
          rfl
        unfold View.Owner
        rw [stage, if_neg (not_not_intro unset)]
        trivial
    | cons owner' tail =>
        obtain rfl : owner' = owner := Option.some.inj isOwner
        have apart : owner' ≠ first := by
          rintro rfl
          have holds := queue.owner owner' rfl
          unfold View.Owner at holds
          rw [restores] at holds
          exact holds
        exact (moved.others owner' apart).owner.mpr (queue.owner owner' rfl)
  · intro other member
    obtain ⟨owner, tip, isOwner, isTip, stageOf⟩ := queue.aside other (List.mem_of_mem_erase member)
    refine ⟨owner, tip, isOwner, isTip, ?_⟩
    have apart : owner ≠ first := by
      rintro rfl
      have nodup := reordered.nodup_iff.mpr queue.nodup
      rw [List.flatten_cons, List.append_assoc] at nodup
      have disjoint := (List.nodup_append.mp (List.nodup_append.mp nodup).2.1).2.2
      exact disjoint owner (List.mem_of_mem_head? head) owner
        (List.mem_flatten_of_mem member (List.mem_of_mem_head? isOwner)) rfl
    rw [(moved.others owner apart).stage, moved.naming]
    exact stageOf
  · intro other v stageOf
    have apart : other ≠ first := by
      rintro rfl
      rw [stage] at stageOf
      cases stageOf
    obtain ⟨own, member, isHead⟩ := queue.restoring other v
      ((moved.others other apart).stage ▸ stageOf)
    refine ⟨own, (List.mem_erase_of_ne ?_).mpr member, isHead⟩
    rintro rfl
    exact apart (Option.some.inj (isHead.symm.trans head))
  · intro other member
    have apart : other ≠ first := by
      rintro rfl
      have polls := ((queue.sound other).unlock (moved.mail ▸ member)).1
      rw [restores] at polls
      cases polls
    have isHead := queue.unlocks other ((moved.others other apart).mail ▸ member)
    rw [List.head?_append, isHead]
    rfl

end Queue

/-! ## Writes to another request -/

/-- A request to which nothing was written, and the parts of a link. -/
theorem Blank.linked {request : LockRequest} {mail : List Part}
    (blank : Blank request mail) (image ofst : Int) :
    Linked request (mail ++ [.image image, .ofst ofst, .done, .padding]) image ofst where
  imagePart := .inl ⟨by simp, blank.image⟩
  ofstPart := .inl ⟨by simp, blank.ofst⟩
  donePart := .inl ⟨by simp, blank.done⟩
  only := by
    intro part member
    rcases List.mem_append.mp member with old | new
    · exact .inl (blank.only part old)
    · exact .inr (by simpa using new)

theorem Blank.nodup {request : LockRequest} {mail : List Part}
    (blank : Blank request mail) (nodup : mail.Nodup) (image ofst : Int) :
    (mail ++ [Part.image image, .ofst ofst, .done, .padding]).Nodup := by
  refine List.nodup_append.mpr ⟨nodup, by simp, ?_⟩
  rintro part member other new rfl
  rw [blank.only part member] at new
  simp at new

/-- Whoever is blank and active has nothing against being written to. -/
theorem View.Sound.written {target : Int} {parts : List Part}
    {request : LockRequest} (before : view.Sound target)
    (wrote : Wrote view after me target parts) (active : view.Active target)
    (nodup : (view.mail target ++ parts).Nodup) (found : view.request target = some request)
    (undone : request.done = false ∨ view.stage target = some .polling)
    (unlock : .unlock ∈ parts → view.stage target = some .polling ∧
      view.Flag target) : after.Sound target where
  fits := by
    rw [wrote.item]
    exact before.fits
  backed := by
    rw [wrote.item, wrote.request]
    exact before.backed
  staged := by
    rw [wrote.item, wrote.stage]
    exact before.staged
  mailNodup := by
    rw [wrote.written]
    exact nodup
  unlock := by
    rw [wrote.written, wrote.stage, wrote.flag]
    intro member
    rcases List.mem_append.mp member with old | new
    · exact before.unlock old
    · exact unlock new
  settled := by
    have settled := before.settled
    unfold View.Settled at settled ⊢
    rw [wrote.stage, wrote.request]
    split at settled
    · rename_i trial stage
      exact absurd stage (active.2.1 trial)
    · exact settled
    · rename_i u stage
      obtain ⟨-, own, isOwn, done⟩ := settled
      obtain rfl := Option.some.inj (found.symm.trans isOwn)
      rcases undone with undone | polls
      · exact absurd (done.symm.trans undone) (by decide)
      · rw [stage] at polls
        cases polls
    · rename_i stage
      exact absurd stage active.2.2
    · trivial

namespace Queue

variable (queue : Queue view main asides)
include queue

/-- The successor of a request writes to it. -/
theorem link {p : LockWord} {target : Int}
    (wrote : Wrote view after me target [.image me, .ofst req, .done, .padding])
    (word : after.word = view.word) (item : view.item me = some req)
    (stage : view.stage me = some (.linking p))
    (stageAfter : after.stage me = some .polling)
    (adjoins : Adjoins (main :: asides) target me) (sound : after.Sound me) :
    Queue after main asides := by
  obtain ⟨request, found, waits⟩ := queue.chained target me adjoins
  rw [stage] at waits
  obtain ⟨-, isBlank, flag⟩ := waits
  have activeTarget := (queue.members target).mp adjoins.mem_left
  have active := (queue.members me).mp adjoins.mem_right
  have activeAfter : after.Active me := by
    refine ⟨?_, ?_, ?_⟩
    · rw [wrote.item]
      exact active.1
    · simp [stageAfter]
    · simp [stageAfter]
  have soundTarget : after.Sound target :=
    (queue.sound target).written wrote activeTarget
      (isBlank.nodup (queue.sound target).mailNodup _ _) found
      (.inl isBlank.done) (by simp)
  refine ⟨fun other => wrote.sound sound soundTarget (queue.sound other),
    queue.nodup, ?_, ?_, ?_, ?_, ?_, ?_, ?_, ?_⟩
  · intro other
    by_cases here : other = me
    · subst here
      rw [queue.members other]
      exact ⟨fun _ => activeAfter, fun _ => active⟩
    · rw [queue.members other, wrote.active here]
  · rw [word, queue.word]
    cases main.getLast? with
    | none => rfl
    | some last => exact (wrote.naming last).symm
  · intro a b found'
    by_cases second : b = me
    · subst second
      obtain rfl := Adjoins.previous_unique queue.nodup found' adjoins
      refine ⟨request, by rw [wrote.request]; exact found, ?_⟩
      rw [stageAfter, wrote.written, wrote.item]
      exact ⟨⟨req, item, isBlank.linked _ _⟩, (wrote.flag _).mpr flag⟩
    · have first : a ≠ target := by
        rintro rfl
        exact second (Adjoins.next_unique queue.nodup found' adjoins)
      exact (wrote.next first second).mpr (queue.chained a b found')
  · intro chain inside last isLast
    have apart : last ≠ target := by
      rintro rfl
      exact Adjoins.ne_last queue.nodup inside isLast adjoins
    exact (wrote.opened apart).mpr (queue.opened chain inside last isLast)
  · intro first isFirst
    have apart : first ≠ me := by
      rintro rfl
      exact Adjoins.ne_head queue.nodup List.mem_cons_self isFirst adjoins
    exact wrote.owner apart (queue.owner first isFirst)
  · intro chain inside
    obtain ⟨first, last, isFirst, isLast, restores⟩ := queue.aside chain inside
    refine ⟨first, last, isFirst, isLast, ?_⟩
    have apart : first ≠ me := by
      rintro rfl
      rw [stage] at restores
      cases restores
    rw [wrote.stage_ne apart, wrote.naming]
    exact restores
  · intro other v restores
    have apart : other ≠ me := by
      rintro rfl
      rw [stageAfter] at restores
      cases restores
    exact queue.restoring other v (wrote.stage_ne apart ▸ restores)
  · intro other member
    by_cases here : other = target
    · subst here
      rw [wrote.written] at member
      exact queue.unlocks other (by simpa using member)
    · exact queue.unlocks other (wrote.mail_ne here ▸ member)

/-- Whoever passes the lock on has been written to, and all of it landed. -/
theorem successor {u : Option LockWord} (stage : view.stage me = some (.handing u)) :
    ∃ next ofst request, Adjoins (main :: asides) me next ∧
      view.request me = some request ∧ request.image = next ∧
      request.ofst = ofst ∧ request.done = true ∧
      view.item next = some ofst ∧ view.stage next = some .polling ∧
      view.Flag next ∧ view.mail me = [] := by
  have settled := (queue.sound me).settled
  unfold View.Settled at settled
  rw [stage] at settled
  obtain ⟨empty, request, found, done⟩ := settled
  have unblank : ∀ letters, ¬Blank request letters := by
    intro letters blank
    exact absurd (done.symm.trans blank.done) (by decide)
  have active : view.Active me := by
    refine ⟨?_, ?_, ?_⟩
    · exact (queue.sound me).staged (by simp [stage])
    · simp [stage]
    · simp [stage]
  have written : ¬view.Open me := by
    rintro ⟨own, isOwn, blank⟩
    obtain rfl := Option.some.inj (found.symm.trans isOwn)
    exact unblank _ blank
  obtain ⟨next, adjoins, own, isOwn, waits⟩ := queue.ahead_of_linked active written
  obtain rfl := Option.some.inj (found.symm.trans isOwn)
  split at waits
  · exact absurd waits.2 (unblank _)
  · exact absurd waits.2.1 (unblank _)
  · rename_i polls
    obtain ⟨⟨ofst, item, linked⟩, flag⟩ := waits
    rw [empty] at linked
    have image := linked.imagePart.resolve_left (by simp)
    have offset := linked.ofstPart.resolve_left (by simp)
    exact ⟨next, ofst, request, adjoins, found, image.2, offset.2, done, item, polls, flag, empty⟩
  · exact absurd waits.2 (unblank _)
  · exact absurd waits.2 (unblank _)
  · exact absurd waits.2 (unblank _)
  · exact waits.elim

/-- An image passes on what its successor wrote, and leaves the queue. -/
theorem leave {u : Option LockWord} {target next : Int} {parts : List Part}
    (wrote : Wrote view after me target parts) (word : after.word = view.word)
    (stage : view.stage me = some (.handing u)) (stageAfter : after.stage me = some .freeing)
    (adjoins : Adjoins (main :: asides) me next)
    (sound : after.Sound me) (soundTarget : after.Sound target)
    (later : ∀ b, b ≠ me → Adjoins (main :: asides) target b →
      view.Next target b → after.Next target b)
    (bridge : ∀ a, Adjoins (main :: asides) a me → after.Next a next)
    (opened : ∀ chain ∈ main :: asides, chain.getLast? = some target →
      view.Open target → after.Open target)
    (owner : ∀ first ∈ (main.filter (· ≠ me)).head?, after.Owner first)
    (unlocks : ∀ other, .unlock ∈ after.mail other → (main.filter (· ≠ me)).head? = some other) :
    Queue after (main.filter (· ≠ me)) (asides.map (·.filter (· ≠ me))) := by
  have whole : main.filter (· ≠ me) :: asides.map (·.filter (· ≠ me)) =
      (main :: asides).map (·.filter (· ≠ me)) := rfl
  have flat : ((main :: asides).map (·.filter (· ≠ me))).flatten =
      (main :: asides).flatten.filter (· ≠ me) := List.filter_flatten.symm
  have lastOf : ∀ chain ∈ main :: asides, ∀ last, chain.getLast? = some last →
      last ≠ me ∧ (chain.filter (· ≠ me)).getLast? = some last := by
    intro chain inside last isLast
    have apart : last ≠ me := by
      rintro rfl
      exact Adjoins.ne_last queue.nodup inside isLast adjoins
    obtain ⟨before, rfl⟩ := List.getLast?_eq_some_iff.mp isLast
    exact ⟨apart, by simp [List.filter_append, apart]⟩
  have lastBack : ∀ chain ∈ main :: asides, ∀ last,
      (chain.filter (· ≠ me)).getLast? = some last → chain.getLast? = some last := by
    intro chain inside last isLast
    cases own : chain.getLast? with
    | none =>
        rw [List.getLast?_eq_none_iff.mp own] at isLast
        cases isLast
    | some tip =>
        rw [(lastOf chain inside tip own).2] at isLast
        exact isLast
  have isHanding : ∀ v, view.stage me ≠ some (.restoring v) := by
    simp [stage]
  refine ⟨fun other => wrote.sound sound soundTarget (queue.sound other), ?_,
    ?_, ?_, ?_, ?_, owner, ?_, ?_, unlocks⟩
  · rw [whole, flat]
    exact queue.nodup.filter _
  · intro other
    rw [whole, flat, List.mem_filter, queue.members other]
    by_cases here : other = me
    · subst here
      refine ⟨fun found => absurd found.2 (by simp), fun active => ?_⟩
      exact absurd stageAfter active.2.2
    · rw [wrote.active here]
      exact ⟨fun found => found.1, fun active => ⟨active, by simpa using here⟩⟩
  · rw [word, queue.word]
    cases isLast : main.getLast? with
    | none =>
        rw [List.getLast?_eq_none_iff.mp isLast]
        rfl
    | some last =>
        rw [(lastOf main List.mem_cons_self last isLast).2]
        exact (wrote.naming last).symm
  · intro a b found
    have apart : b ≠ me := by
      have member := found.mem_right
      rw [whole, flat] at member
      simpa using (List.mem_filter.mp member).2
    rcases Adjoins.without queue.nodup found with found | ⟨ahead, behind⟩
    · by_cases first : a = target
      · subst first
        exact later b apart found (queue.chained a b found)
      · exact (wrote.next first apart).mpr (queue.chained a b found)
    · obtain rfl := Adjoins.next_unique queue.nodup adjoins behind
      exact bridge a ahead
  · intro kept member last isLast
    obtain ⟨chain, inside, rfl⟩ := List.mem_map.mp (whole ▸ member)
    have own := lastBack chain inside last isLast
    have before := queue.opened chain inside last own
    by_cases here : last = target
    · subst here
      exact opened chain inside own before
    · exact (wrote.opened here).mpr before
  · intro kept member
    obtain ⟨chain, inside, rfl⟩ := List.mem_map.mp member
    obtain ⟨first, last, isFirst, isLast, restores⟩ := queue.aside chain inside
    have apart : first ≠ me := by
      rintro rfl
      exact isHanding _ restores
    refine ⟨first, last, ?_, (lastOf chain (List.mem_cons_of_mem _ inside) last isLast).2, ?_⟩
    · obtain ⟨tail, rfl⟩ := List.head?_eq_some_iff.mp isFirst
      rw [List.filter_cons_of_pos (by simpa using apart)]
      rfl
    · rw [wrote.stage_ne apart, wrote.naming]
      exact restores
  · intro other v restores
    have apart : other ≠ me := by
      rintro rfl
      rw [stageAfter] at restores
      cases restores
    obtain ⟨chain, inside, head⟩ := queue.restoring other v (wrote.stage_ne apart ▸ restores)
    refine ⟨chain.filter (· ≠ me), List.mem_map_of_mem inside, ?_⟩
    obtain ⟨tail, rfl⟩ := List.head?_eq_some_iff.mp head
    rw [List.filter_cons_of_pos (by simpa using apart)]
    rfl

/-- The owner and its successor are the first of the chain. -/
theorem front {next : Int} (head : main.head? = some me)
    (adjoins : Adjoins (main :: asides) me next) :
    ∃ rest, main = me :: next :: rest := by
  obtain ⟨tail, rfl⟩ := List.head?_eq_some_iff.mp head
  obtain ⟨chain, inside, front, rest, split⟩ := adjoins
  have same : me :: tail = chain := by
    by_contra apart
    have symmetric : Std.Symm (@List.Disjoint Int) := ⟨fun _ _ disjoint => disjoint.symm⟩
    have disjoint := (List.nodup_flatten.mp queue.nodup).2.forall List.mem_cons_self inside apart
    exact @disjoint me List.mem_cons_self (by simp [split])
  have own := (List.nodup_flatten.mp queue.nodup).1 _ List.mem_cons_self
  obtain rfl := (Adjoins.split_unique own (List.nil_append _).symm (same.trans split)).2
  exact ⟨rest, rfl⟩

/-- The owner passes the lock on. -/
theorem pass {next : Int} (wrote : Wrote view after me next [.unlock])
    (word : after.word = view.word) (stage : view.stage me = some (.handing none))
    (stageAfter : after.stage me = some .freeing) (adjoins : Adjoins (main :: asides) me next)
    (polls : view.stage next = some .polling) (flag : view.Flag next)
    (sound : after.Sound me) (unmailed : view.mail me = []) :
    Queue after (main.filter (· ≠ me)) (asides.map (·.filter (· ≠ me))) := by
  have active := (queue.members me).mp adjoins.mem_left
  have head : main.head? = some me :=
    queue.head_of_stage active
      (fun a => not_next_of_stage (by rw [stage]; trivial)) (by simp [stage])
  have ends : (main.filter (· ≠ me)).head? = some next := by
    obtain ⟨rest, rfl⟩ := queue.front head adjoins
    have apart : next ≠ me := wrote.apart
    rw [List.filter_cons_of_neg (by simp), List.filter_cons_of_pos (by simpa using apart)]
    rfl
  have fresh : .unlock ∉ view.mail next := by
    intro member
    have isHead := queue.unlocks next member
    exact wrote.apart (Option.some.inj (isHead.symm.trans head))
  have activeNext := (queue.members next).mp adjoins.mem_right
  obtain ⟨request, found⟩ := Option.ne_none_iff_exists'.mp ((queue.sound next).backed activeNext.1)
  have blank : ∀ letters, Blank request letters →
      Blank request (letters ++ [.unlock]) := fun letters blank =>
    ⟨blank.image, blank.ofst, blank.done, fun part member =>
      (List.mem_append.mp member).elim (blank.only part) (by simp)⟩
  refine queue.leave wrote word stage stageAfter adjoins sound ?_ ?_ ?_ ?_ ?_ ?_
  · refine (queue.sound next).written wrote activeNext ?_ found (.inr polls)
      fun _ => ⟨polls, flag⟩
    refine List.nodup_append.mpr ⟨(queue.sound next).mailNodup, by simp, ?_⟩
    rintro part member other new rfl
    rw [List.mem_singleton.mp new] at member
    exact fresh member
  · rintro b apart - ⟨own, isOwn, waits⟩
    obtain rfl := Option.some.inj (found.symm.trans isOwn)
    refine ⟨request, by rw [wrote.request]; exact found, ?_⟩
    rw [wrote.stage_ne apart, wrote.item, wrote.naming, wrote.flag, wrote.written]
    split at waits
    · exact ⟨waits.1, blank _ waits.2⟩
    · exact ⟨waits.1, blank _ waits.2.1, waits.2.2⟩
    · obtain ⟨⟨ofst, item, linked⟩, isFlag⟩ := waits
      refine ⟨⟨ofst, item, ?_, ?_, ?_, ?_⟩, isFlag⟩
      · simpa using linked.imagePart
      · simpa using linked.ofstPart
      · simpa using linked.donePart
      · intro part member
        rcases List.mem_append.mp member with old | new
        · exact linked.only part old
        · exact .inl (List.mem_singleton.mp new)
    · exact ⟨waits.1, blank _ waits.2⟩
    · exact ⟨waits.1, blank _ waits.2⟩
    · exact ⟨waits.1, blank _ waits.2⟩
    · exact waits
  · intro a ahead
    exact absurd ahead (Adjoins.ne_head queue.nodup List.mem_cons_self head)
  · rintro chain inside last ⟨own, isOwn, isBlank⟩
    refine ⟨own, by rw [wrote.request]; exact isOwn, ?_⟩
    obtain rfl := Option.some.inj (found.symm.trans isOwn)
    rw [wrote.written]
    exact blank _ isBlank
  · intro first isFirst
    obtain rfl := Option.some.inj (ends.symm.trans isFirst)
    unfold View.Owner
    rw [wrote.stage, polls, wrote.written]
    exact fun _ => by simp
  · intro other member
    by_cases here : other = next
    · exact here ▸ ends
    · rw [wrote.mail_ne here] at member
      obtain rfl := Option.some.inj ((queue.unlocks other member).symm.trans head)
      rw [unmailed] at member
      cases member

/-- The first of the victims links its successor to the usurper. -/
theorem splice {u : LockWord} {target next ofst : Int}
    (wrote : Wrote view after me target [.image next, .ofst ofst, .done, .padding])
    (word : after.word = view.word)
    (stage : view.stage me = some (.handing (some u)))
    (stageAfter : after.stage me = some .freeing)
    (ahead : Adjoins (main :: asides) target me)
    (adjoins : Adjoins (main :: asides) me next)
    (item : view.item next = some ofst)
    (polls : view.stage next = some .polling) (flag : view.Flag next)
    (sound : after.Sound me) (unmailed : view.mail me = []) :
    Queue after (main.filter (· ≠ me)) (asides.map (·.filter (· ≠ me))) := by
  obtain ⟨request, found, waits⟩ := queue.chained target me ahead
  rw [stage] at waits
  obtain ⟨-, isBlank⟩ := waits
  have activeTarget := (queue.members target).mp ahead.mem_left
  have apart : next ≠ me := (adjoins.ne queue.nodup).symm
  have headApart : ∀ first, main.head? = some first → first ≠ me ∧
      (main.filter (· ≠ me)).head? = some first := by
    intro first isFirst
    have apart : first ≠ me := by
      rintro rfl
      exact Adjoins.ne_head queue.nodup List.mem_cons_self isFirst ahead
    obtain ⟨tail, rfl⟩ := List.head?_eq_some_iff.mp isFirst
    rw [List.filter_cons_of_pos (by simpa using apart)]
    exact ⟨apart, rfl⟩
  refine queue.leave wrote word stage stageAfter adjoins sound ?_ ?_ ?_ ?_ ?_ ?_
  · exact (queue.sound target).written wrote activeTarget
      (isBlank.nodup (queue.sound target).mailNodup _ _) found
      (.inl isBlank.done) (by simp)
  · intro b notMe found'
    exact absurd (Adjoins.next_unique queue.nodup found' ahead) notMe
  · intro a before
    obtain rfl := Adjoins.previous_unique queue.nodup before ahead
    refine ⟨request, by rw [wrote.request]; exact found, ?_⟩
    rw [wrote.stage_ne apart, polls, wrote.written, wrote.item]
    exact ⟨⟨ofst, item, isBlank.linked _ _⟩, (wrote.flag _).mpr flag⟩
  · intro chain inside last
    exact absurd ahead (Adjoins.ne_last queue.nodup inside last)
  · intro first isFirst
    cases own : main.head? with
    | none =>
        rw [List.head?_eq_none_iff.mp own] at isFirst
        cases isFirst
    | some head =>
        obtain ⟨notMe, ends⟩ := headApart head own
        obtain rfl := Option.some.inj (ends.symm.trans isFirst)
        exact wrote.owner notMe (queue.owner head own)
  · intro other member
    have before : .unlock ∈ view.mail other := by
      by_cases here : other = target
      · subst here
        rw [wrote.written] at member
        simpa using member
      · exact wrote.mail_ne here ▸ member
    exact (headApart other (queue.unlocks other before)).2

end Queue

/-! ## Writes that land -/

/-- A part on its way to a request lands in it. -/
structure Landed (view after : View) (me : Int) (part : Part)
    (request : LockRequest) : Prop where
  others : ∀ other, other ≠ me → Same view after other
  item : after.item me = view.item me
  stage : after.stage me = view.stage me
  member : part ∈ view.mail me
  mail : after.mail me = (view.mail me).erase part
  found : view.request me = some request
  left : after.request me = some (request.receive part)

namespace Landed

variable {part : Part} {request : LockRequest}
  (landed : Landed view after me part request)
include landed

theorem naming (other : Int) : after.naming other = view.naming other := by
  unfold View.naming
  by_cases here : other = me
  · rw [here, landed.item]
  · rw [(landed.others other here).item]

theorem active (other : Int) : after.Active other ↔ view.Active other := by
  by_cases here : other = me
  · subst here
    unfold View.Active
    rw [landed.item, landed.stage]
  · exact (landed.others other here).active

theorem stage_eq (other : Int) : after.stage other = view.stage other := by
  by_cases here : other = me
  · exact here ▸ landed.stage
  · exact (landed.others other here).stage

theorem item_eq (other : Int) : after.item other = view.item other := by
  by_cases here : other = me
  · exact here ▸ landed.item
  · exact (landed.others other here).item

/-- Only the write of a release changes the flag. -/
theorem flag (kept : part ≠ .unlock) (other : Int) : after.Flag other ↔ view.Flag other := by
  by_cases here : other = me
  · subst here
    have locked : (request.receive part).locked = request.locked := by
      cases part <;> first | rfl | exact absurd rfl kept
    unfold View.Flag
    rw [landed.left, landed.found]
    simp [locked]
  · exact (landed.others other here).flag

theorem blank (blank : Blank request (view.mail me)) :
    Blank (request.receive part) (after.mail me) := by
  rw [blank.only part landed.member, landed.mail]
  exact ⟨blank.image, blank.ofst, blank.done, fun other member =>
    blank.only other (List.mem_of_mem_erase member)⟩

theorem linked {image ofst : Int} (nodup : (view.mail me).Nodup)
    (linked : Linked request (view.mail me) image ofst) :
    Linked (request.receive part) (after.mail me) image ofst := by
  have erased : ∀ other, other ∈ (view.mail me).erase part ↔
      other ≠ part ∧ other ∈ view.mail me := fun other => nodup.mem_erase_iff
  refine ⟨?_, ?_, ?_, ?_⟩
  · have imagePart := linked.imagePart
    rw [landed.mail, erased]
    rcases linked.only part landed.member with rfl | rfl | rfl | rfl | rfl <;>
      simp_all [LockRequest.receive, landed.member]
  · have ofstPart := linked.ofstPart
    rw [landed.mail, erased]
    rcases linked.only part landed.member with rfl | rfl | rfl | rfl | rfl <;>
      simp_all [LockRequest.receive, landed.member]
  · have donePart := linked.donePart
    rw [landed.mail, erased]
    rcases linked.only part landed.member with rfl | rfl | rfl | rfl | rfl <;>
      simp_all [LockRequest.receive, landed.member]
  · rw [landed.mail]
    exact fun other member => linked.only other (List.mem_of_mem_erase member)

theorem opened {other : Int} (opened : view.Open other) : after.Open other := by
  by_cases here : other = me
  · subst here
    obtain ⟨own, isOwn, blank⟩ := opened
    obtain rfl := Option.some.inj (landed.found.symm.trans isOwn)
    exact ⟨_, landed.left, landed.blank blank⟩
  · exact (landed.others other here).opened.mpr opened

theorem sound (before : view.Sound me) : after.Sound me where
  fits := by
    rw [landed.item]
    exact before.fits
  backed := by
    rw [landed.left]
    exact fun _ => Option.some_ne_none _
  staged := by
    rw [landed.item, landed.stage]
    exact before.staged
  mailNodup := by
    rw [landed.mail]
    exact before.mailNodup.erase part
  unlock := by
    rw [landed.mail, before.mailNodup.mem_erase_iff, landed.stage]
    rintro ⟨apart, member⟩
    obtain ⟨polls, flag⟩ := before.unlock member
    exact ⟨polls, (landed.flag apart.symm me).mpr flag⟩
  settled := by
    have member := landed.member
    have settled := before.settled
    have done : request.done = true → (request.receive part).done = true := by
      cases part <;> first | exact id | exact fun _ => rfl
    unfold View.Settled at settled ⊢
    rw [landed.stage, landed.left]
    split at settled
    · rw [settled.2] at member
      cases member
    · obtain ⟨own, isOwn, isDone⟩ := settled
      obtain rfl := Option.some.inj (landed.found.symm.trans isOwn)
      exact ⟨_, rfl, done isDone⟩
    · rw [settled.1] at member
      cases member
    · rw [settled] at member
      cases member
    · trivial

end Landed

/-- A part lands in the request of an image. -/
theorem Queue.receive (queue : Queue view main asides) {part : Part}
    {request : LockRequest} (landed : Landed view after me part request)
    (word : after.word = view.word) : Queue after main asides := by
  have nodup := (queue.sound me).mailNodup
  refine ⟨?_, queue.nodup, ?_, ?_, ?_, ?_, ?_, ?_, ?_, ?_⟩
  · intro other
    by_cases here : other = me
    · exact here ▸ landed.sound (queue.sound me)
    · exact (landed.others other here).sound (queue.sound other)
  · intro other
    rw [queue.members other, landed.active]
  · rw [word, queue.word]
    cases main.getLast? with
    | none => rfl
    | some last => exact (landed.naming last).symm
  · intro a b adjoins
    have flag : after.Flag b ↔ view.Flag b := by
      by_cases kept : part = .unlock
      · refine (landed.others b ?_).flag
        rintro rfl
        exact Adjoins.ne_head queue.nodup List.mem_cons_self
          (queue.unlocks b (kept ▸ landed.member)) adjoins
      · exact landed.flag kept b
    obtain ⟨own, isOwn, waits⟩ := queue.chained a b adjoins
    by_cases here : a = me
    · subst here
      obtain rfl := Option.some.inj (landed.found.symm.trans isOwn)
      refine ⟨_, landed.left, ?_⟩
      rw [landed.stage_eq, landed.item_eq, landed.naming, flag]
      split at waits
      · exact ⟨waits.1, landed.blank waits.2⟩
      · exact ⟨waits.1, landed.blank waits.2.1, waits.2.2⟩
      · obtain ⟨⟨ofst, item, linked⟩, isFlag⟩ := waits
        exact ⟨⟨ofst, item, landed.linked nodup linked⟩, isFlag⟩
      · exact ⟨waits.1, landed.blank waits.2⟩
      · exact ⟨waits.1, landed.blank waits.2⟩
      · exact ⟨waits.1, landed.blank waits.2⟩
      · exact waits
    · have same := landed.others a here
      refine ⟨own, same.request.trans isOwn, ?_⟩
      rw [landed.stage_eq, landed.item_eq, landed.naming, flag, same.mail]
      exact waits
  · intro chain inside last isLast
    exact landed.opened (queue.opened chain inside last isLast)
  · intro first isFirst
    have owner := queue.owner first isFirst
    by_cases here : first = me
    · subst here
      unfold View.Owner at owner ⊢
      rw [landed.stage, landed.mail, nodup.mem_erase_iff]
      split at owner
      · trivial
      · trivial
      · trivial
      · trivial
      · trivial
      · trivial
      · by_cases kept : part = .unlock
        · rintro ⟨own, isOwn, locked⟩
          obtain rfl := Option.some.inj (landed.left.symm.trans isOwn)
          rw [kept] at locked
          cases locked
        · exact fun flag => ⟨Ne.symm kept, owner ((landed.flag kept first).mp flag)⟩
      · exact owner
    · exact (landed.others first here).owner.mpr owner
  · intro chain inside
    obtain ⟨first, last, isFirst, isLast, restores⟩ := queue.aside chain inside
    refine ⟨first, last, isFirst, isLast, ?_⟩
    rw [landed.stage_eq, landed.naming]
    exact restores
  · intro other v restores
    exact queue.restoring other v (landed.stage_eq other ▸ restores)
  · intro other member
    by_cases here : other = me
    · subst here
      rw [landed.mail] at member
      exact queue.unlocks other (List.mem_of_mem_erase member)
    · exact queue.unlocks other ((landed.others other here).mail ▸ member)

end OpenUH.Libcaf.CoarrayLock
