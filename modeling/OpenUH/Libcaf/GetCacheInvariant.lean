import OpenUH.Libcaf.GetCache
import Mathlib.Tactic.Ring

/-!
# The invariant of the get cache

Bytes in flight, landed bytes and bytes of the line all agree with the segment
as the writes of this image leave it.  A call that writes breaks this for the
line at the addresses it writes to, until the line is updated.
-/

namespace OpenUH.Libcaf.GetCache

open Foundation

/-! ## The walk of a strided copy -/

/-- After a block the walk is at the next one. -/
theorem nextBlock_eq (stride : Level → Nat) {block cntStride : Nat}
    (levels : List Level) (base : Int) (positive : 0 < cntStride)
    (below : block + 1 < numBlks levels) :
    nextBlock stride ((block + 1) * cntStride) cntStride levels
        (base + blockOffset stride levels block) =
      base + blockOffset stride levels (block + 1) := by
  induction levels generalizing block cntStride base with
  | nil =>
      simp [numBlks] at below
  | cons level levels ih =>
      have counts : numBlks (level :: levels) = level.count * numBlks levels := by
        simp [numBlks]
      have positiveCount : 0 < level.count := by
        rcases Nat.eq_zero_or_pos level.count with zero | positiveCount
        · rw [counts, zero, Nat.zero_mul] at below
          omega
        · exact positiveCount
      have divides : (block + 1) * cntStride % (cntStride * level.count) =
          cntStride * ((block + 1) % level.count) := by
        rw [Nat.mul_comm (block + 1), Nat.mul_mod_mul_left]
      unfold nextBlock
      rw [divides]
      by_cases inside : (block + 1) % level.count = 0
      · obtain ⟨quotient, whole⟩ := Nat.dvd_of_mod_eq_zero inside
        obtain ⟨previous, rfl⟩ : ∃ previous, quotient = previous + 1 := by
          cases quotient with
          | zero => simp at whole
          | succ previous => exact ⟨previous, rfl⟩
        have split : block = level.count * previous + (level.count - 1) := by
          rw [Nat.mul_succ] at whole
          omega
        have digit : block % level.count = level.count - 1 := by
          rw [split, Nat.mul_add_mod, Nat.mod_eq_of_lt (Nat.sub_lt positiveCount Nat.one_pos)]
        have carry : block / level.count = previous := by
          rw [split, Nat.mul_add_div positiveCount,
            Nat.div_eq_of_lt (Nat.sub_lt positiveCount Nat.one_pos),
            Nat.add_zero]
        have next : (block + 1) / level.count = previous + 1 := by
          rw [whole, Nat.mul_div_cancel_left _ positiveCount]
        rw [if_neg (by simp [inside])]
        have here : base + (blockOffset stride (level :: levels) block : Int) -
            ((level.count : Int) - 1) * stride level =
            base + blockOffset stride levels previous := by
          simp only [blockOffset, digit, carry, Nat.cast_add, Nat.cast_mul,
            Nat.cast_sub positiveCount, Nat.cast_one]
          ring
        have start : (block + 1) * cntStride = (previous + 1) * (cntStride * level.count) := by
          rw [whole]
          ring
        have room : previous + 1 < numBlks levels := by
          rw [counts, whole] at below
          exact Nat.lt_of_mul_lt_mul_left below
        rw [here, start, ih base (Nat.mul_pos positive positiveCount) room]
        simp [blockOffset, inside, next]
      · have digit : (block + 1) % level.count = block % level.count + 1 := by
          rw [Nat.add_mod]
          have below := Nat.mod_lt block positiveCount
          rcases Nat.lt_or_ge (block % level.count + 1) level.count with
            less | whole
          · rw [Nat.mod_eq_of_lt (a := 1) (by omega), Nat.mod_eq_of_lt less]
          · exfalso
            apply inside
            have last : block % level.count = level.count - 1 := by omega
            rw [Nat.add_mod, last]
            rcases Nat.eq_or_lt_of_le (Nat.succ_le_of_lt positiveCount) with
              one | more
            · simp [← one]
            · rw [Nat.mod_eq_of_lt (a := 1) more]
              simp [Nat.sub_add_cancel positiveCount]
        have carry : (block + 1) / level.count = block / level.count := by
          rw [Nat.succ_div, if_neg, Nat.add_zero]
          exact fun whole => inside (Nat.mod_eq_zero_of_dvd whole)
        rw [if_pos (by simp [inside, positive.ne'])]
        simp only [blockOffset, digit, carry, Nat.cast_add, Nat.cast_mul, Nat.cast_one]
        ring

/-- The walk comes by every block, in order. -/
theorem blockPointers_eq (stride : Level → Nat) (levels : List Level)
    {blocks block : Nat} (within : block + blocks ≤ numBlks levels) :
    blockPointers stride levels blocks block (blockOffset stride levels block) =
      (List.range' block blocks).map fun block =>
        (blockOffset stride levels block : Int) := by
  induction blocks generalizing block with
  | zero => rfl
  | succ blocks ih =>
      simp only [blockPointers, List.range'_succ, List.map_cons]
      congr 1
      cases blocks with
      | zero => rfl
      | succ blocks =>
          have next := @nextBlock_eq stride block 1 levels 0 Nat.one_pos (by omega)
          rw [Nat.mul_one, Int.zero_add, Int.zero_add] at next
          rw [next]
          exact ih (by omega)

theorem blockOffset_zero (stride : Level → Nat) (levels : List Level) :
    blockOffset stride levels 0 = 0 := by
  induction levels with
  | nil => rfl
  | cons level levels ih =>
      simp [blockOffset, ih]

/-- `local_strided_copy` goes through the bytes of a strided transfer. -/
@[simp]
theorem Shape.copied_eq (shape : Shape) : shape.copied = shape.offsets := by
  cases shape with
  | contiguous nbytes => rfl
  | strided blkSize levels =>
      have walk := @blockPointers_eq (·.remoteStride) levels (numBlks levels) 0 (by omega)
      rw [blockOffset_zero, Nat.cast_zero] at walk
      simp only [Shape.copied, Shape.offsets, walk, List.range_eq_range',
        List.flatMap_map, Int.toNat_natCast]

/-! ## Bytes written in turn -/

variable {memory : Nat → UInt8}

/-- An address gets what all bytes for it say, or keeps what it has. -/
theorem store_eq {bytes : List (Nat × UInt8)} {address : Nat} {value : UInt8}
    (agrees : ∀ byte ∈ bytes, byte.1 = address → byte.2 = value)
    (settled : address ∉ bytes.map (·.1) → memory address = value) :
    store memory bytes address = value := by
  unfold store
  induction bytes generalizing memory with
  | nil => exact settled (by simp)
  | cons byte bytes ih =>
      refine ih
        (fun other member => agrees other (List.mem_cons_of_mem _ member))
        fun absent => ?_
      by_cases same : address = byte.1
      · subst same
        exact (Function.update_self _ _ _).trans (agrees byte List.mem_cons_self rfl)
      · exact (Function.update_of_ne same _ _).trans (settled (by simpa [same] using absent))

theorem store_of_notMem {bytes : List (Nat × UInt8)}
    {address : Nat} (absent : address ∉ bytes.map (·.1)) :
    store memory bytes address = memory address :=
  store_eq (fun _ member same => absurd (List.mem_map.mpr ⟨_, member, same⟩) absent) fun _ => rfl

/-- Each of several bytes at different addresses is found again. -/
theorem store_of_mem {bytes : List (Nat × UInt8)}
    (nodup : (bytes.map (·.1)).Nodup) {byte : Nat × UInt8}
    (member : byte ∈ bytes) : store memory bytes byte.1 = byte.2 := by
  refine store_eq (fun other inside same => ?_) fun absent =>
    absurd (List.mem_map_of_mem member) absent
  rw [List.inj_on_of_nodup_map nodup inside member same]

/-! ## The invariant -/

/-- The addresses with a byte in flight. -/
def State.inFlight (state : State) : List Nat :=
  state.flying.map (·.address)

/--
Everything agrees with `written`, except for the line at the addresses in
`dirty`; the handle `limbo` may not be listed yet.
-/
structure Invariant (job : Job) (dirty : List Nat) (limbo : Nat)
    (state : State) : Prop where
  nodup : state.inFlight.Nodup
  flies : ∀ byte ∈ state.flying, state.written byte.address = byte.value
  settled : ∀ address, address ∉ state.inFlight → state.memory address = state.written address
  listed : ∀ byte ∈ state.flying, byte.handle = limbo ∨
    ∃ node ∈ state.handles, node.handle = byte.handle
  numbered : ∀ byte ∈ state.flying, byte.handle ≠ 0
  current : ∀ byte ∈ state.filling,
    byte.handle = state.handle ∧ state.handle ≠ 0
  placed : ∀ byte ∈ state.filling,
    byte.address = state.remoteAddress + byte.place
  fills : ∀ byte ∈ state.filling, byte.address ∉ dirty →
    (∀ value, byte.content = some value →
        value = state.written byte.address) ∧
      (byte.content = none → byte.address ∉ state.inFlight)
  line : state.remoteAddress ≠ 0 → ∀ offset < job.getcacheBlockSize,
    state.remoteAddress + offset ∉ dirty →
    (∀ byte ∈ state.filling, byte.place ≠ offset) →
    state.line offset = state.written (state.remoteAddress + offset)
  gets : ∀ byte ∈ state.getting,
    (∀ value, byte.content = some value → value = byte.expected) ∧
      (byte.content = none → byte.expected = state.written byte.address ∧
        byte.address ∉ state.inFlight)
  answers : ∀ answer ∈ state.answers, answer.1 = answer.2
  disabled : job.enableGetCache = false → state.remoteAddress = 0 ∧ state.filling = []

variable {job : Job} {dirty : List Nat} {limbo : Nat} {state after : State}

namespace Invariant

variable (invariant : Invariant job dirty limbo state)
include invariant

/-- A byte of the line, once fetched, is right. -/
theorem fetched_fill {byte : FillByte} (member : byte ∈ state.filling)
    (clean : byte.address ∉ dirty) :
    state.fetched byte.address byte.content = state.written byte.address := by
  obtain ⟨known, unknown⟩ := invariant.fills byte member clean
  unfold State.fetched
  cases content : byte.content with
  | none => exact invariant.settled _ (unknown content)
  | some value => exact known value content

/-- A byte for the caller, once fetched, is what the caller expects. -/
theorem fetched_get {byte : GetByte} (member : byte ∈ state.getting) :
    state.fetched byte.address byte.content = byte.expected := by
  obtain ⟨known, unknown⟩ := invariant.gets byte member
  unfold State.fetched
  cases content : byte.content with
  | none =>
      obtain ⟨expected, clear⟩ := unknown content
      exact (invariant.settled _ clear).trans expected.symm
  | some value => exact known value content

/-- Fewer bytes in flight, the rest having landed. -/
theorem land {flying : List PutByte} (sublist : flying.Sublist state.flying)
    (settled : ∀ address, address ∉ flying.map (·.address) →
      memory address = state.written address) :
    Invariant job dirty limbo
      { state with memory := memory, flying := flying } := by
  have fewer : ∀ address, address ∉ state.inFlight →
      address ∉ flying.map (·.address) := fun address absent member =>
    absent ((sublist.map _).subset member)
  exact
    { nodup := invariant.nodup.sublist (sublist.map _)
      flies := fun byte member =>
        invariant.flies byte (sublist.subset member)
      settled := settled
      listed := fun byte member => invariant.listed byte (sublist.subset member)
      numbered := fun byte member =>
        invariant.numbered byte (sublist.subset member)
      current := invariant.current
      placed := invariant.placed
      fills := fun byte member clean =>
        ⟨(invariant.fills byte member clean).1, fun unknown =>
          fewer _ ((invariant.fills byte member clean).2 unknown)⟩
      line := invariant.line
      gets := fun byte member =>
        ⟨(invariant.gets byte member).1, fun unknown =>
          ⟨((invariant.gets byte member).2 unknown).1,
            fewer _ ((invariant.gets byte member).2 unknown).2⟩⟩
      answers := invariant.answers
      disabled := invariant.disabled }

/-- Bytes for the line that the line has by now. -/
theorem storeLine {filling : List FillByte} {line : Nat → UInt8}
    (sublist : filling.Sublist state.filling)
    (stored : state.remoteAddress ≠ 0 → ∀ offset < job.getcacheBlockSize,
      state.remoteAddress + offset ∉ dirty →
      (∀ byte ∈ filling, byte.place ≠ offset) →
      line offset = state.written (state.remoteAddress + offset)) :
    Invariant job dirty limbo
      { state with line := line, filling := filling } :=
  { invariant with
    current := fun byte member => invariant.current byte (sublist.subset member)
    placed := fun byte member => invariant.placed byte (sublist.subset member)
    fills := fun byte member => invariant.fills byte (sublist.subset member)
    line := stored
    disabled := fun isDisabled => by
      obtain ⟨uncached, empty⟩ := invariant.disabled isDisabled
      exact ⟨uncached, List.sublist_nil.mp (empty ▸ sublist)⟩ }

/-- Bytes for the caller that have been delivered. -/
theorem deliver {getting : List GetByte} {answers : List (UInt8 × UInt8)}
    (sublist : getting.Sublist state.getting) (right : ∀ answer ∈ answers, answer.1 = answer.2) :
    Invariant job dirty limbo
      { state with getting := getting, answers := answers } :=
  { invariant with
    gets := fun byte member => invariant.gets byte (sublist.subset member)
    answers := right }

end Invariant

/-! ## The network -/

theorem mem_modify {α : Type} {list : List α} {index : Nat} {change : α → α}
    {element : α} (member : element ∈ list.modify index change) :
    element ∈ list ∨ ∃ old ∈ list, element = change old := by
  obtain ⟨position, below, rfl⟩ := List.mem_iff_getElem.mp member
  have inside : position < list.length := by
    simpa using below
  rw [List.getElem_modify]
  split
  · exact .inr ⟨_, List.getElem_mem inside, rfl⟩
  · exact .inl (List.getElem_mem inside)

theorem exists_mem_modify {α : Type} {list : List α} {index : Nat}
    {change : α → α} {element : α} (member : element ∈ list) :
    element ∈ list.modify index change ∨ change element ∈ list.modify index change := by
  obtain ⟨position, below, rfl⟩ := List.mem_iff_getElem.mp member
  have inside : position < (list.modify index change).length := by
    simpa using below
  have found := List.getElem_mem inside
  rw [List.getElem_modify] at found
  split at found
  · exact .inr found
  · exact .inl found

/-- What progress of the network and waits leave as it was. -/
structure Evolves (before after : State) : Prop where
  remoteAddress : after.remoteAddress = before.remoteAddress
  written : after.written = before.written
  handle : after.handle = before.handle
  flying : after.flying ⊆ before.flying
  filling : before.filling = [] → after.filling = []
  getting : ∀ byte ∈ after.getting, byte.content = none →
    byte ∈ before.getting
  issued : after.issued = before.issued

theorem Evolves.refl (state : State) : Evolves state state :=
  ⟨rfl, rfl, rfl, List.Subset.refl _, id, fun _ member _ => member, rfl⟩

theorem Evolves.trans {middle : State} (first : Evolves state middle)
    (second : Evolves middle after) : Evolves state after where
  remoteAddress := second.remoteAddress.trans first.remoteAddress
  written := second.written.trans first.written
  handle := second.handle.trans first.handle
  flying := List.Subset.trans second.flying first.flying
  filling := fun empty => second.filling (first.filling empty)
  getting := fun byte member unknown =>
    first.getting byte (second.getting byte member unknown) unknown
  issued := second.issued.trans first.issued

theorem evolves_progress (state : State) (event : Progress) :
    Evolves state (state.progress event) := by
  cases event with
  | land index =>
      unfold State.progress
      dsimp only
      split
      · exact Evolves.refl state
      · exact { Evolves.refl state with
          flying := (List.eraseIdx_sublist _ _).subset }
  | fetchLine index =>
      exact { Evolves.refl state with
        filling := fun empty => by
          simp [State.progress, empty] }
  | storeLine index =>
      unfold State.progress
      dsimp only
      split
      · exact Evolves.refl state
      · exact { Evolves.refl state with
          filling := fun empty => by simp [empty] }
  | fetch index =>
      refine { Evolves.refl state with getting := ?_ }
      intro byte member unknown
      rcases mem_modify member with old | ⟨old, -, rfl⟩
      · exact old
      · cases unknown

theorem Invariant.progress (invariant : Invariant job dirty limbo state) (event : Progress) :
    Invariant job dirty limbo (state.progress event) := by
  cases event with
  | land index =>
      unfold State.progress
      dsimp only
      split
      · exact invariant
      · rename_i byte found
        obtain ⟨below, rfl⟩ := List.getElem?_eq_some_iff.mp found
        refine invariant.land (List.eraseIdx_sublist _ _) fun address absent => ?_
        by_cases same : address = state.flying[index].address
        · subst same
          rw [Function.update_self]
          exact (invariant.flies _ (List.getElem_mem below)).symm
        · rw [Function.update_of_ne same]
          refine invariant.settled address fun member => absent ?_
          obtain ⟨byte, inside, rfl⟩ := List.mem_map.mp member
          refine List.mem_map_of_mem ?_
          obtain ⟨position, within, rfl⟩ := List.mem_iff_getElem.mp inside
          refine List.mem_eraseIdx_iff_getElem.mpr ⟨position, within, ?_, rfl⟩
          rintro rfl
          exact same rfl
  | fetchLine index =>
      have kept : ∀ byte ∈ (state.progress (.fetchLine index)).filling,
          ∃ old ∈ state.filling, byte.handle = old.handle ∧
            byte.address = old.address ∧ byte.place = old.place ∧
            (byte.content = old.content ∨ byte.content =
              some (state.fetched old.address old.content)) := by
        intro byte member
        rcases mem_modify member with old | ⟨old, inside, rfl⟩
        · exact ⟨byte, old, rfl, rfl, rfl, .inl rfl⟩
        · exact ⟨old, inside, rfl, rfl, rfl, .inr rfl⟩
      refine { invariant with
        current := ?_, placed := ?_, fills := ?_, line := ?_, disabled := ?_ }
      · intro byte member
        obtain ⟨old, inside, handle, -⟩ := kept byte member
        rw [handle]
        exact invariant.current old inside
      · intro byte member
        obtain ⟨old, inside, -, address, place, -⟩ := kept byte member
        rw [address, place]
        exact invariant.placed old inside
      · intro byte member clean
        obtain ⟨old, inside, -, address, -, same | fetched⟩ := kept byte member
        · rw [address] at clean ⊢
          rw [same]
          exact invariant.fills old inside clean
        · rw [address] at clean ⊢
          rw [fetched, invariant.fetched_fill inside clean]
          exact ⟨fun value isValue => (Option.some.inj isValue).symm,
            fun unknown => by cases unknown⟩
      · intro cached offset below clean free
        refine invariant.line cached offset below clean fun byte member => ?_
        rcases exists_mem_modify member with same | changed
        · exact free _ same
        · exact fun place => free _ changed place
      · intro isDisabled
        obtain ⟨uncached, empty⟩ := invariant.disabled isDisabled
        exact ⟨uncached, by simp [State.progress, empty]⟩
  | storeLine index =>
      unfold State.progress
      dsimp only
      split
      · exact invariant
      · rename_i byte found
        obtain ⟨below, rfl⟩ := List.getElem?_eq_some_iff.mp found
        have member := List.getElem_mem below
        refine invariant.storeLine (List.eraseIdx_sublist _ _) ?_
        intro cached offset within clean free
        by_cases same : offset = state.filling[index].place
        · subst same
          rw [← invariant.placed _ member] at clean ⊢
          rw [Function.update_self]
          exact invariant.fetched_fill member clean
        · rw [Function.update_of_ne same]
          refine invariant.line cached offset within clean fun byte inside => ?_
          obtain ⟨position, here, rfl⟩ := List.mem_iff_getElem.mp inside
          by_cases last : position = index
          · subst last
            exact fun equal => same equal.symm
          · exact free _ (List.mem_eraseIdx_iff_getElem.mpr ⟨position, here, last, rfl⟩)
  | fetch index =>
      refine { invariant with gets := ?_ }
      intro byte member
      rcases mem_modify member with old | ⟨old, inside, rfl⟩
      · exact invariant.gets byte old
      · refine ⟨fun value isValue => ?_, fun unknown => by cases unknown⟩
        rw [← invariant.fetched_get inside]
        exact (Option.some.inj isValue).symm

theorem Invariant.progresses (invariant : Invariant job dirty limbo state)
    (events : List Progress) :
    Invariant job dirty limbo (state.progresses events) ∧
      Evolves state (state.progresses events) := by
  unfold State.progresses
  induction events generalizing state with
  | nil => exact ⟨invariant, Evolves.refl state⟩
  | cons event events ih =>
      obtain ⟨kept, evolves⟩ := ih (invariant.progress event)
      exact ⟨kept, (evolves_progress state event).trans evolves⟩

/-- The network completes a put. -/
theorem Invariant.waitPut (invariant : Invariant job dirty limbo state) (handle : Nat) :
    Invariant job dirty limbo (state.waitPut handle) := by
  refine invariant.land List.filter_sublist fun address absent => ?_
  refine store_eq ?_ fun outside => ?_
  · rintro byte member rfl
    obtain ⟨flight, inside, rfl⟩ := List.mem_map.mp member
    exact (invariant.flies flight (List.mem_of_mem_filter inside)).symm
  · refine invariant.settled address fun member => ?_
    obtain ⟨byte, inside, rfl⟩ := List.mem_map.mp member
    by_cases same : byte.handle = handle
    · refine outside ?_
      rw [List.map_map]
      exact List.mem_map.mpr ⟨byte, by simp [inside, same], rfl⟩
    · exact absent (List.mem_map.mpr ⟨byte, by simp [inside, same], rfl⟩)

theorem evolves_waitPut (state : State) (handle : Nat) : Evolves state (state.waitPut handle) :=
  { Evolves.refl state with flying := List.filter_sublist.subset }

theorem Invariant.waitGet (invariant : Invariant job dirty limbo state) (handle : Nat) :
    Invariant job dirty limbo (state.waitGet handle) := by
  refine invariant.deliver List.filter_sublist fun answer member => ?_
  rcases List.mem_append.mp member with old | new
  · exact invariant.answers answer old
  · obtain ⟨byte, inside, rfl⟩ := List.mem_map.mp new
    exact invariant.fetched_get (List.mem_of_mem_filter inside)

theorem evolves_waitGet (state : State) (handle : Nat) : Evolves state (state.waitGet handle) :=
  { Evolves.refl state with
    getting := fun _ member _ => List.mem_of_mem_filter member }

/-- After the wait nothing is on its way into the line. -/
theorem Invariant.waitLine (invariant : Invariant job dirty limbo state) :
    Invariant job dirty limbo state.waitLine ∧ state.waitLine.filling = [] := by
  unfold State.waitLine
  split
  · have gone : ∀ byte, byte ∉ state.filling.filter (·.handle ≠ state.handle) := by
      intro byte member
      obtain ⟨inside, apart⟩ := List.mem_filter.mp member
      simp [(invariant.current byte inside).1] at apart
    have all : state.filling.filter (·.handle = state.handle) = state.filling := by
      refine List.filter_eq_self.mpr fun byte member => ?_
      simp [(invariant.current byte member).1]
    have stored := @Invariant.storeLine job dirty limbo state invariant []
      (state.waitFill state.handle).line (List.nil_sublist _) (by
        intro cached offset within clean _
        unfold State.waitFill
        dsimp only
        rw [all]
        refine store_eq ?_ fun absent => ?_
        · rintro pair member rfl
          obtain ⟨byte, inside, rfl⟩ := List.mem_map.mp member
          dsimp only at clean ⊢
          rw [← invariant.placed byte inside] at clean ⊢
          exact invariant.fetched_fill inside clean
        · refine invariant.line cached offset within clean ?_
          rintro byte inside rfl
          exact absent (by simpa using ⟨byte, inside, rfl⟩))
    have empty := List.eq_nil_iff_forall_not_mem.mpr gone
    refine ⟨{ stored with
      current := fun byte member => absurd member (gone byte)
      placed := fun byte member => absurd member (gone byte)
      fills := fun byte member => absurd member (gone byte)
      line := fun cached offset within clean _ =>
        stored.line cached offset within clean fun _ member =>
          absurd member List.not_mem_nil
      disabled := fun isDisabled =>
        ⟨(invariant.disabled isDisabled).1, empty⟩ }, empty⟩
  · rename_i idle
    refine ⟨invariant, List.eq_nil_iff_forall_not_mem.mpr ?_⟩
    exact fun byte member => idle (invariant.current byte member).2

/-- What a wait for the line leaves as it was. -/
theorem waitLine_eq (state : State) :
    ∃ line filling, state.waitLine =
      { state with line := line, filling := filling, handle := 0 } := by
  unfold State.waitLine
  split
  · exact ⟨_, _, rfl⟩
  · rename_i idle
    obtain isZero : state.handle = 0 := not_not.mp idle
    refine ⟨state.line, state.filling, ?_⟩
    rw [← isZero]

end OpenUH.Libcaf.GetCache
