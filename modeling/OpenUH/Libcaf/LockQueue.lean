import OpenUH.Libcaf.CoarrayLock

/-!
# The queue of one lock

A lock is seen as its word and, for each image, the request, the stage of the
call and the mail on its way to the request.  The requests form one chain from
the owner to the word, and chains that a release has taken off the word.
-/

namespace OpenUH.Libcaf.CoarrayLock

open Foundation

/-! ## Chains -/

/-- One comes right before another in some chain. -/
def Adjoins (chains : List (List Int)) (a b : Int) : Prop :=
  ∃ chain ∈ chains, ∃ front rest, chain = front ++ a :: b :: rest

variable {chain : List Int}

/-- What is not the head of its chain comes after another. -/
theorem head_or_adjoins {chains : List (List Int)} {b : Int}
    (inside : chain ∈ chains) (member : b ∈ chain) :
    chain.head? = some b ∨ ∃ a, Adjoins chains a b := by
  obtain ⟨before, rest, rfl⟩ := List.append_of_mem member
  rcases List.eq_nil_or_concat before with rfl | ⟨front, a, rfl⟩
  · exact .inl rfl
  · exact .inr ⟨a, _, inside, front, rest, by simp⟩

/-- What is not the last of its chain comes before another. -/
theorem last_or_adjoins {chains : List (List Int)} {a : Int}
    (inside : chain ∈ chains) (member : a ∈ chain) :
    chain.getLast? = some a ∨ ∃ b, Adjoins chains a b := by
  obtain ⟨front, after, rfl⟩ := List.append_of_mem member
  cases after with
  | nil => exact .inl (by simp)
  | cons b rest => exact .inr ⟨b, _, inside, front, rest, rfl⟩

namespace Adjoins

variable {chains others : List (List Int)} {a b c : Int}

theorem mem_left (adjoins : Adjoins chains a b) : a ∈ chains.flatten := by
  obtain ⟨chain, inside, front, rest, rfl⟩ := adjoins
  exact List.mem_flatten_of_mem inside (by simp)

theorem mem_right (adjoins : Adjoins chains a b) : b ∈ chains.flatten := by
  obtain ⟨chain, inside, front, rest, rfl⟩ := adjoins
  exact List.mem_flatten_of_mem inside (by simp)

theorem mono (within : ∀ chain ∈ chains, chain ∈ others)
    (adjoins : Adjoins chains a b) : Adjoins others a b := by
  obtain ⟨chain, inside, found⟩ := adjoins
  exact ⟨chain, within chain inside, found⟩

/-- Neighbours in a chain are neighbours in all of them together. -/
theorem flatten (adjoins : Adjoins chains a b) :
    ∃ front rest, chains.flatten = front ++ a :: b :: rest := by
  obtain ⟨chain, inside, front, rest, rfl⟩ := adjoins
  obtain ⟨before, behind, rfl⟩ := List.append_of_mem inside
  exact ⟨before.flatten ++ front, rest ++ behind.flatten, by simp⟩

theorem ne (nodup : chains.flatten.Nodup) (adjoins : Adjoins chains a b) : a ≠ b := by
  obtain ⟨front, rest, split⟩ := adjoins.flatten
  rw [split] at nodup
  have own := (List.nodup_append.mp nodup).2.1
  exact fun same => (List.nodup_cons.mp own).1 (by simp [same])

/-- A list without repetitions is split at an element in one way. -/
theorem split_unique {whole front behind front' behind' : List Int}
    (nodup : whole.Nodup) (first : whole = front ++ a :: behind)
    (second : whole = front' ++ a :: behind') :
    front = front' ∧ behind = behind' := by
  have outside : a ∉ front ∧ a ∉ behind := by
    rw [first] at nodup
    obtain ⟨-, later, apart⟩ := List.nodup_append.mp nodup
    exact ⟨fun member => apart a member a List.mem_cons_self rfl, (List.nodup_cons.mp later).1⟩
  obtain ⟨same, -, below⟩ := (List.append_cons_inj_of_notMem outside.1
    outside.2).mp (first.symm.trans second)
  exact ⟨same, below⟩

theorem next_unique (nodup : chains.flatten.Nodup)
    (first : Adjoins chains a b) (second : Adjoins chains a c) : b = c := by
  obtain ⟨front, rest, split⟩ := first.flatten
  obtain ⟨front', rest', split'⟩ := second.flatten
  exact (List.cons.inj (split_unique nodup split split').2).1

theorem previous_unique (nodup : chains.flatten.Nodup)
    (first : Adjoins chains a c) (second : Adjoins chains b c) : a = b := by
  obtain ⟨front, rest, split⟩ := first.flatten
  obtain ⟨front', rest', split'⟩ := second.flatten
  rw [List.append_cons] at split split'
  exact (List.cons.inj (List.append_inj' (split_unique nodup split split').1 rfl).2).1

/-- What comes before the head of a chain: nothing. -/
theorem ne_head (nodup : chains.flatten.Nodup)
    (inside : chain ∈ chains) (head : chain.head? = some b) :
    ¬Adjoins chains a b := by
  rintro ⟨other, insideOther, front, rest, rfl⟩
  obtain ⟨later, rfl⟩ : ∃ later, chain = b :: later := by
    cases chain with
    | nil => cases head
    | cons first later => exact ⟨later, by rw [Option.some.inj head]⟩
  have symmetric : Std.Symm (@List.Disjoint Int) := ⟨fun _ _ disjoint => disjoint.symm⟩
  have same : b :: later = front ++ a :: b :: rest := by
    by_contra apart
    exact (List.nodup_flatten.mp nodup).2.forall inside insideOther apart
      List.mem_cons_self (by simp)
  have own := (List.nodup_flatten.mp nodup).1 _ inside
  have first := (split_unique own (List.nil_append _).symm
    (same.trans (List.append_cons front a (b :: rest)))).1
  simp at first

/-- What comes after the last of a chain: nothing. -/
theorem ne_last (nodup : chains.flatten.Nodup)
    (inside : chain ∈ chains) (last : chain.getLast? = some a) :
    ¬Adjoins chains a b := by
  rintro ⟨other, insideOther, front, rest, rfl⟩
  obtain ⟨before, rfl⟩ := List.getLast?_eq_some_iff.mp last
  have symmetric : Std.Symm (@List.Disjoint Int) := ⟨fun _ _ disjoint => disjoint.symm⟩
  have same : before ++ [a] = front ++ a :: b :: rest := by
    by_contra apart
    have disjoint := (List.nodup_flatten.mp nodup).2.forall inside insideOther apart
    exact @disjoint a (by simp) (by simp)
  have own := (List.nodup_flatten.mp nodup).1 _ inside
  cases (split_unique own rfl same).2

/-- Where a chain is put together of two, the neighbours are known. -/
theorem append {first second : List Int} (adjoins : Adjoins ((first ++ second) :: others) a b) :
    Adjoins (first :: second :: others) a b ∨ first.getLast? = some a ∧ second.head? = some b := by
  obtain ⟨chain, inside, split⟩ := adjoins
  rcases List.mem_cons.mp inside with rfl | later
  · let known : Int → Int → Prop := fun a b =>
      Adjoins (first :: second :: others) a b ∨ first.getLast? = some a ∧ second.head? = some b
    have related : (first ++ second).IsChain known := by
      refine List.isChain_append.mpr ⟨?_, ?_, ?_⟩
      · exact List.isChain_iff_forall_rel_of_append_cons_cons.mpr
          fun a b front rest found =>
            .inl ⟨first, List.mem_cons_self, front, rest, found⟩
      · exact List.isChain_iff_forall_rel_of_append_cons_cons.mpr
          fun a b front rest found =>
            .inl ⟨second, by simp, front, rest, found⟩
      · exact fun a last b head => .inr ⟨last, head⟩
    obtain ⟨front, rest, found⟩ := split
    exact List.isChain_iff_forall_rel_of_append_cons_cons.mp related found
  · exact .inl ⟨chain, by simp [later], split⟩

/-- Where an element is taken out, its neighbours become neighbours. -/
theorem without (nodup : chains.flatten.Nodup)
    (adjoins : Adjoins (chains.map (·.filter (· ≠ c))) a b) :
    Adjoins chains a b ∨ Adjoins chains a c ∧ Adjoins chains c b := by
  obtain ⟨kept, inside, front, rest, split⟩ := adjoins
  obtain ⟨chain, inChains, rfl⟩ := List.mem_map.mp inside
  by_cases member : c ∈ chain
  · obtain ⟨before, behind, rfl⟩ := List.append_of_mem member
    have own := (List.nodup_flatten.mp nodup).1 _ inChains
    have left : before.filter (· ≠ c) = before := by
      refine List.filter_eq_self.mpr fun x inBefore => ?_
      have apart := (List.nodup_append.mp own).2.2 x inBefore c List.mem_cons_self
      exact decide_eq_true apart
    have right : behind.filter (· ≠ c) = behind := by
      refine List.filter_eq_self.mpr fun x inBehind => decide_eq_true ?_
      rintro rfl
      exact (List.nodup_cons.mp (List.nodup_append.mp own).2.1).1 inBehind
    have joined : (before ++ c :: behind).filter (· ≠ c) = before ++ behind := by
      rw [List.filter_append, List.filter_cons_of_neg (by simp), left, right]
    have found : Adjoins [before ++ behind] a b :=
      ⟨_, List.mem_singleton_self _, front, rest, joined.symm.trans split⟩
    rcases found.append with ⟨part, isPart, front, rest, rfl⟩ | ⟨last, head⟩
    · left
      rcases List.mem_cons.mp isPart with rfl | isBehind
      · exact ⟨_, inChains, front, rest ++ c :: behind, by simp⟩
      · obtain rfl := List.mem_singleton.mp isBehind
        exact ⟨_, inChains, before ++ c :: front, rest, by simp⟩
    · right
      obtain ⟨early, rfl⟩ := List.getLast?_eq_some_iff.mp last
      obtain ⟨later, rfl⟩ : ∃ later, behind = b :: later := by
        cases behind with
        | nil => cases head
        | cons x later => exact ⟨later, by rw [Option.some.inj head]⟩
      exact ⟨⟨_, inChains, early, b :: later, by simp⟩, ⟨_, inChains, early ++ [a], later, by simp⟩⟩
  · have whole : chain.filter (· ≠ c) = chain := by
      refine List.filter_eq_self.mpr fun x inChain => decide_eq_true ?_
      rintro rfl
      exact member inChain
    exact .inl ⟨chain, inChains, front, rest, whole ▸ split⟩

end Adjoins

/-! ## Bit-fields -/

/-- An image and an offset that their bit-fields hold. -/
structure Fits (image ofst : Int) : Prop where
  image_pos : 1 ≤ image
  image_lt : image < 2 ^ 19
  ofst_nonneg : 0 ≤ ofst
  ofst_lt : ofst < 2 ^ 35

theorem bitField_eq {width : Nat} {value : Int} (nonneg : 0 ≤ value)
    (below : value < 2 ^ width) : bitField (width + 1) value = value := by
  unfold bitField
  have power : (2 : Int) ^ (width + 1) = 2 * 2 ^ width := by
    rw [Int.pow_succ, Int.mul_comm]
  have positive : 0 < 2 ^ (width + 1) := Nat.pow_pos Nat.two_pos
  refine (Int.bmod_eq_iff positive).mpr ⟨?_, ?_, ?_⟩
  · push_cast
    rw [power]
    omega
  · push_cast
    rw [power]
    omega
  · simp

namespace Fits

variable {image ofst : Int} (fits : Fits image ofst)
include fits

theorem taken_eq : LockWord.taken image ofst = ⟨true, image, ofst⟩ := by
  unfold LockWord.taken
  rw [@bitField_eq 19 image (by have := fits.image_pos; omega) fits.image_lt,
    @bitField_eq 35 ofst fits.ofst_nonneg fits.ofst_lt]

theorem linkParts_eq : linkParts image ofst = [.image image, .ofst ofst, .done, .padding] := by
  unfold linkParts
  rw [@bitField_eq 19 image (by have := fits.image_pos; omega) fits.image_lt,
    @bitField_eq 35 ofst fits.ofst_nonneg fits.ofst_lt]

end Fits

/-! ## One lock -/

/-- What one lock consists of. -/
@[ext]
structure View where
  word : LockWord
  item : Int → Option Int
  stage : Int → Option Stage
  request : Int → Option LockRequest
  mail : Int → List Part

/-- Nothing was written to a request, and nothing is on its way. -/
structure Blank (request : LockRequest) (mail : List Part) : Prop where
  image : request.image = 0
  ofst : request.ofst = 0
  done : request.done = false
  only : ∀ part ∈ mail, part = .unlock

/-- A successor wrote to a request; each part has landed or is on its way. -/
structure Linked (request : LockRequest) (mail : List Part)
    (image ofst : Int) : Prop where
  imagePart : .image image ∈ mail ∧ request.image = 0 ∨ .image image ∉ mail ∧ request.image = image
  ofstPart : .ofst ofst ∈ mail ∧ request.ofst = 0 ∨ .ofst ofst ∉ mail ∧ request.ofst = ofst
  donePart : .done ∈ mail ∧ request.done = false ∨ .done ∉ mail ∧ request.done = true
  only : ∀ part ∈ mail, part = .unlock ∨ part = .image image ∨
    part = .ofst ofst ∨ part = .done ∨ part = .padding

namespace View

/-- The word that names an image. -/
def naming (view : View) (me : Int) : LockWord :=
  .taken me ((view.item me).getD 0)

/-- The flag of a request is set. -/
def Flag (view : View) (me : Int) : Prop :=
  ∃ request, view.request me = some request ∧ request.locked = true

/-- A request and the one behind it, which waits for it or passes on to it. -/
def Next (view : View) (a b : Int) : Prop :=
  ∃ request, view.request a = some request ∧
    match view.stage b with
    | some (.marking p) => p = view.naming a ∧ Blank request (view.mail a)
    | some (.linking p) =>
        p = view.naming a ∧ Blank request (view.mail a) ∧ view.Flag b
    | some .polling => (∃ ofst, view.item b = some ofst ∧
        Linked request (view.mail a) b ofst) ∧ view.Flag b
    | some (.awaitingDone (some u)) | some (.awaitingImage (some u))
    | some (.handing (some u)) =>
        u = view.naming a ∧ Blank request (view.mail a)
    | _ => False

/-- The first of the chain holds the lock, passes it on, or is given it. -/
def Owner (view : View) (me : Int) : Prop :=
  match view.stage me with
  | none | some .comparing | some .resetting | some (.awaitingDone none)
  | some (.awaitingImage none) | some (.handing none) => True
  | some .polling => view.Flag me → .unlock ∈ view.mail me
  | _ => False

/-- A request that is on the lock, or was taken off to be linked again. -/
def Active (view : View) (me : Int) : Prop :=
  view.item me ≠ none ∧ (∀ trial, view.stage me ≠ some (.swapping trial)) ∧
    view.stage me ≠ some .freeing

/-- Nothing was written to the last request of a chain. -/
def Open (view : View) (me : Int) : Prop :=
  ∃ request, view.request me = some request ∧ Blank request (view.mail me)

/-- What a stage says of the request of the image. -/
def Settled (view : View) (me : Int) : Prop :=
  match view.stage me with
  | some (.swapping _) => view.request me = some LockRequest.fresh ∧ view.mail me = []
  | some (.awaitingImage _) =>
      ∃ request, view.request me = some request ∧ request.done = true
  | some (.handing _) => view.mail me = [] ∧
      ∃ request, view.request me = some request ∧ request.done = true
  | some .freeing => view.mail me = []
  | _ => True

/-- What holds of each image by itself. -/
structure Sound (view : View) (me : Int) : Prop where
  fits : ∀ req, view.item me = some req → Fits me req
  backed : view.item me ≠ none → view.request me ≠ none
  staged : view.stage me ≠ none → view.item me ≠ none
  mailNodup : (view.mail me).Nodup
  unlock : .unlock ∈ view.mail me → view.stage me = some .polling ∧ view.Flag me
  settled : view.Settled me

end View

/-- The invariant of a lock: the chain on its word, and the chains aside. -/
structure Queue (view : View) (main : List Int) (asides : List (List Int)) :
    Prop where
  sound : ∀ me, view.Sound me
  nodup : (main :: asides).flatten.Nodup
  members : ∀ me, me ∈ (main :: asides).flatten ↔ view.Active me
  word : view.word = main.getLast?.elim LockWord.unset view.naming
  chained : ∀ a b, Adjoins (main :: asides) a b → view.Next a b
  opened : ∀ chain ∈ main :: asides, ∀ last ∈ chain.getLast?, view.Open last
  owner : ∀ me ∈ main.head?, view.Owner me
  aside : ∀ chain ∈ asides, ∃ me last, chain.head? = some me ∧
    chain.getLast? = some last ∧
    view.stage me = some (.restoring (view.naming last))
  restoring : ∀ me v, view.stage me = some (.restoring v) → ∃ chain ∈ asides, chain.head? = some me
  unlocks : ∀ me, .unlock ∈ view.mail me → main.head? = some me

variable {view : View} {main : List Int} {asides : List (List Int)}

namespace Queue

variable (queue : Queue view main asides)
include queue

theorem naming_eq {me req : Int} (item : view.item me = some req) :
    view.naming me = ⟨true, me, req⟩ := by
  unfold View.naming
  rw [item]
  exact ((queue.sound me).fits req item).taken_eq

/-- A word names one image. -/
theorem naming_image {me : Int} (active : view.Active me) : (view.naming me).image = me := by
  obtain ⟨req, item⟩ := Option.ne_none_iff_exists'.mp active.1
  rw [queue.naming_eq item]

theorem active {me : Int} (inside : chain ∈ main :: asides)
    (member : me ∈ chain) : view.Active me :=
  (queue.members me).mp (List.mem_flatten_of_mem inside member)

theorem active_head {me : Int} (head : main.head? = some me) : view.Active me :=
  queue.active List.mem_cons_self (List.mem_of_mem_head? head)

/-- An active image is the head of a chain, or behind another. -/
theorem head_or_behind {me : Int} (active : view.Active me) :
    main.head? = some me ∨
      (∃ chain ∈ asides, chain.head? = some me) ∨
      ∃ a, Adjoins (main :: asides) a me := by
  obtain ⟨chain, inside, member⟩ := List.mem_flatten.mp ((queue.members me).mpr active)
  rcases head_or_adjoins inside member with head | found
  · rcases List.mem_cons.mp inside with rfl | later
    · exact .inl head
    · exact .inr (.inl ⟨chain, later, head⟩)
  · exact .inr (.inr found)

/-- Whoever is at a stage that waits for nobody owns the lock. -/
theorem head_of_stage {me : Int} (active : view.Active me) (free : ∀ a, ¬view.Next a me)
    (here : ∀ v, view.stage me ≠ some (.restoring v)) :
    main.head? = some me := by
  rcases queue.head_or_behind active with head | ⟨chain, inside, head⟩ |
    ⟨a, adjoins⟩
  · exact head
  · obtain ⟨first, last, isFirst, -, stage⟩ := queue.aside chain inside
    obtain rfl := Option.some.inj (isFirst.symm.trans head)
    exact absurd stage (here _)
  · exact absurd (queue.chained a me adjoins) (free a)

/-- Whoever is at a stage of waiting is behind another. -/
theorem behind_of_stage {me : Int} (active : view.Active me) (waits : ¬view.Owner me)
    (here : ∀ v, view.stage me ≠ some (.restoring v)) :
    ∃ a, Adjoins (main :: asides) a me ∧ view.Next a me := by
  rcases queue.head_or_behind active with head | ⟨chain, inside, head⟩ |
    ⟨a, adjoins⟩
  · exact absurd (queue.owner me head) waits
  · obtain ⟨first, last, isFirst, -, stage⟩ := queue.aside chain inside
    obtain rfl := Option.some.inj (isFirst.symm.trans head)
    exact absurd stage (here _)
  · exact ⟨a, adjoins, queue.chained a me adjoins⟩

/-- Whoever was written to is ahead of another. -/
theorem ahead_of_linked {me : Int} (active : view.Active me) (linked : ¬view.Open me) :
    ∃ b, Adjoins (main :: asides) me b ∧ view.Next me b := by
  obtain ⟨chain, inside, member⟩ := List.mem_flatten.mp ((queue.members me).mpr active)
  rcases last_or_adjoins inside member with last | ⟨b, adjoins⟩
  · exact absurd (queue.opened chain inside me last) linked
  · exact ⟨b, adjoins, queue.chained me b adjoins⟩

end Queue

end OpenUH.Libcaf.CoarrayLock
