import OpenUH.Libcaf.OutsideTransfers

/-!
# Which bytes the transfers move

A chunk of a transfer moves the bytes of its range between the two images.  The
chunks of a loop make up one range, and so do the loop and the bytes that are
left, where both go the same way.
-/

namespace OpenUH.Libcaf.OutsideTransfers

namespace Setting

variable {setting : Setting} {state : State}

/-! ## Chunks -/

/-- A chunk that is read moves its range from the process to the image. -/
theorem commReadChunk_memory (setting : Setting) (bufsize target source offset bytesToSend : Nat)
    (state : State) :
    (setting.commReadChunkOutsideSharedMem bufsize target source offset bytesToSend
        state).memory =
      state.memory.move setting.myProc setting.proc (target + offset)
        (source + offset) bytesToSend :=
  congrArg (state.memory.change _) (memmove_buffer _ _ _ _ _)

/-- A chunk that is written moves its range from the image to the process. -/
theorem commWriteChunk_memory (setting : Setting) (bufsize target source offset bytesToSend : Nat)
    (state : State) :
    (setting.commWriteChunkOutsideSharedMem bufsize target source offset bytesToSend
        state).memory =
      state.memory.move setting.proc setting.myProc (target + offset)
        (source + offset) bytesToSend :=
  congrArg (state.memory.change _) (memmove_buffer _ _ _ _ _)

/-- The chunks move the bytes of one range, if each moves its own. -/
theorem chunks_memory {chunk : Nat → State → State} {toProc fromProc target source size : Nat}
    (distinct : toProc ≠ fromProc)
    (moves : ∀ offset state, (chunk offset state).memory =
      state.memory.move toProc fromProc (target + offset) (source + offset) size)
    (count offset : Nat) (state : State) :
    (chunks chunk size count offset state).memory =
      state.memory.move toProc fromProc (target + offset) (source + offset) (count * size) := by
  induction count generalizing offset state with
  | zero =>
      rw [Nat.zero_mul, Memory.move_zero]
      rfl
  | succ count ih =>
      rw [chunks, ih, moves, ← Nat.add_assoc, ← Nat.add_assoc,
        Memory.move_append distinct, Nat.succ_mul, Nat.add_comm size]

/-- A transfer moves its bytes, if its chunks and what is left do. -/
theorem transfer_memory {fullChunk : Nat → State → State} {remainder : Nat → Nat → State → State}
    {toProc fromProc target source nbytes : Nat} (distinct : toProc ≠ fromProc)
    (fits : nbytes / setting.maxData < 2 ^ 31)
    (moves : ∀ offset state, (fullChunk offset state).memory =
      state.memory.move toProc fromProc (target + offset) (source + offset) setting.maxData)
    (ends : ∀ offset bytes state, (remainder offset bytes state).memory =
      state.memory.move toProc fromProc (target + offset) (source + offset) bytes) :
    ∃ final, setting.transfer fullChunk remainder nbytes state = some final ∧
      final.memory = state.memory.move toProc fromProc target source nbytes := by
  have chunked := chunks_memory distinct moves (nbytes / setting.maxData) 0 state
  have split := Nat.div_add_mod' nbytes setting.maxData
  refine ⟨_, if_pos fits, ?_⟩
  by_cases some : 0 < nbytes % setting.maxData
  · rw [if_pos some, ends, chunked, Nat.add_zero, Nat.add_zero, Memory.move_append distinct, split]
  · have whole : nbytes / setting.maxData * setting.maxData = nbytes := by omega
    rw [if_neg some, chunked, Nat.add_zero, Nat.add_zero, whole]

/-! ## Messages -/

/-- Every message so far fits. -/
def Fitting (setting : Setting) (state : State) : Prop :=
  ∀ length ∈ state.messages, length ≤ setting.amMaxMedium

theorem fitting_start (setting : Setting) (memory : Memory) (buffer : Nat → UInt8) :
    setting.Fitting { memory := memory, buffer := buffer, messages := [] } := by
  intro length member
  cases member

theorem chunks_fitting {chunk : Nat → State → State} {size : Nat}
    (keeps : ∀ offset state, setting.Fitting state → setting.Fitting (chunk offset state))
    (count offset : Nat) (fitting : setting.Fitting state) :
    setting.Fitting (chunks chunk size count offset state) := by
  induction count generalizing offset state with
  | zero => exact fitting
  | succ count ih =>
      exact ih (offset + size) (keeps offset state fitting)

theorem transfer_fitting {fullChunk : Nat → State → State} {remainder : Nat → Nat → State → State}
    {nbytes : Nat} {final : State}
    (keeps : ∀ offset state, setting.Fitting state → setting.Fitting (fullChunk offset state))
    (ends : ∀ offset bytes state, setting.Fitting state →
      setting.Fitting (remainder offset bytes state))
    (fitting : setting.Fitting state)
    (ran : setting.transfer fullChunk remainder nbytes state = some final) :
    setting.Fitting final := by
  unfold transfer at ran
  by_cases fits : nbytes / setting.maxData < 2 ^ 31
  · rw [if_pos fits] at ran
    rw [← Option.some.inj ran]
    have chunked := @chunks_fitting setting state fullChunk setting.maxData keeps
      (nbytes / setting.maxData) 0 fitting
    split
    · exact ends _ _ _ chunked
    · exact chunked
  · rw [if_neg fits] at ran
    cases ran

/-- Messages that are no longer than the limit keep to it. -/
theorem Fitting.append {later : State} {lengths : List Nat} (fitting : setting.Fitting state)
    (sent : later.messages = state.messages ++ lengths)
    (short : ∀ length ∈ lengths, length ≤ setting.amMaxMedium) :
    setting.Fitting later := by
  intro length member
  rw [sent] at member
  rcases List.mem_append.1 member with before | now
  · exact fitting length before
  · exact short length now

theorem commReadChunk_fitting (target source offset bytesToSend : Nat)
    (fitting : setting.Fitting state) :
    setting.Fitting (setting.commReadChunkOutsideSharedMem setting.amMaxMedium
      target source offset bytesToSend state) := by
  apply fitting.append rfl
  intro length member
  simp only [List.mem_cons, List.not_mem_nil, or_false] at member
  rcases member with request | reply
  · exact Nat.le_of_eq request
  · exact Nat.le_of_eq reply

theorem commWriteChunk_fitting (room : payloadSize < setting.amMaxMedium)
    (target source offset bytesToSend : Nat) (fitting : setting.Fitting state) :
    setting.Fitting (setting.commWriteChunkOutsideSharedMem setting.amMaxMedium
      target source offset bytesToSend state) := by
  apply fitting.append rfl
  intro length member
  simp only [List.mem_cons, List.not_mem_nil, or_false] at member
  rcases member with request | reply
  · exact Nat.le_of_eq request
  · rw [reply]
    exact Nat.le_of_lt room

/-! ## Reads and writes -/

/-- The bytes asked for are moved, all others stay, and the messages fit. -/
def Moves (setting : Setting) (call : State → Option State)
    (toProc fromProc target source nbytes : Nat) : Prop :=
  ∀ memory buffer, ∃ final,
    call { memory := memory, buffer := buffer, messages := [] } = some final ∧
      final.memory = memory.move toProc fromProc target source nbytes ∧
      setting.Fitting final

theorem localMemcpy_moves (setting : Setting) (dest src nbytes : Nat) :
    setting.Moves (fun state => some (setting.localMemcpy dest src nbytes state))
      setting.myProc setting.myProc dest src nbytes :=
  fun _ buffer => ⟨_, rfl, rfl, setting.fitting_start _ buffer⟩

/-- A write moves its bytes where the counter of its loop fits. -/
theorem commWrite_moves_iff (room : payloadSize < setting.amMaxMedium) (dest src nbytes : Nat) :
    setting.Moves (setting.commWrite dest src nbytes) setting.proc setting.myProc
        dest src nbytes ↔
      setting.myProc = setting.proc ∨ nbytes / setting.maxData < 2 ^ 31 := by
  by_cases own : setting.myProc = setting.proc
  · refine ⟨fun _ => Or.inl own, fun _ memory buffer => ?_⟩
    obtain ⟨final, ran, moved, fitting⟩ := setting.localMemcpy_moves dest src nbytes memory buffer
    refine ⟨final, (if_pos own).trans ran, ?_, fitting⟩
    rw [moved, ← own]
  · constructor
    · intro moves
      obtain ⟨final, ran, -⟩ := moves (fun _ _ => 0) fun _ => 0
      by_contra wide
      have none := (if_neg own).symm.trans ran
      unfold commWriteOutsideSharedMem transfer at none
      rw [if_neg fun fits => wide (Or.inr fits)] at none
      cases none
    · intro fits memory buffer
      obtain ⟨final, ran, moved⟩ := @transfer_memory setting
        { memory := memory, buffer := buffer, messages := [] } _ _ setting.proc
        setting.myProc dest src nbytes (Ne.symm own) (fits.resolve_left own)
        (fun offset state => setting.commWriteChunk_memory _ dest src offset _ state)
        (fun offset bytes state =>
          setting.commWriteChunk_memory setting.amMaxMedium dest src offset bytes state)
      refine ⟨final, (if_neg own).trans ran, moved, ?_⟩
      exact transfer_fitting
        (fun _ _ fitting => commWriteChunk_fitting room _ _ _ _ fitting)
        (fun _ _ _ fitting => commWriteChunk_fitting room _ _ _ _ fitting)
        (setting.fitting_start memory buffer) ran

/-- The messages of a read fit. -/
theorem commRead_fitting {dest src nbytes : Nat} {final : State} (fitting : setting.Fitting state)
    (ran : setting.commReadOutsideSharedMem dest src nbytes state = some final) :
    setting.Fitting final :=
  transfer_fitting
    (fun _ _ fitting => commReadChunk_fitting _ _ _ _ fitting)
    (fun _ _ _ fitting => commReadChunk_fitting _ _ _ _ fitting)
    fitting ran

/--
The full chunks of a read go from the destination's address to the source's: the
byte that was to be read is not in its place.
-/
theorem commReadOutside_wrong {src dest nbytes : Nat} {final : State}
    (distinct : setting.myProc ≠ setting.proc) (differ : src ≠ dest)
    (room : payloadSize < setting.amMaxMedium) (many : setting.maxData ≤ nbytes)
    (empty : ∀ address, state.memory setting.myProc address = 0)
    (single : ∀ address, state.memory setting.proc address =
      if address = src then 1 else 0)
    (ran : setting.commReadOutsideSharedMem src dest nbytes state = some final) :
    final.memory setting.myProc dest = 0 := by
  have positive : 0 < setting.maxData := by
    unfold maxData
    omega
  have chunked := chunks_memory distinct
    (fun offset state => setting.commReadChunk_memory setting.amMaxMedium src dest
      offset setting.maxData state)
    (nbytes / setting.maxData) 0 state
  rw [Nat.add_zero, Nat.add_zero] at chunked
  have some : 1 ≤ nbytes / setting.maxData := (Nat.one_le_div_iff positive).2 many
  have before : (state.memory.move setting.myProc setting.proc src dest
      (nbytes / setting.maxData * setting.maxData)) setting.myProc dest = 0 := by
    unfold Memory.move Memory.change
    rw [Function.update_self]
    unfold memmove
    split
    case isTrue inside =>
      unfold bytesFrom
      rw [single, if_neg (by omega)]
    case isFalse => exact empty dest
  unfold commReadOutsideSharedMem transfer at ran
  by_cases fits : nbytes / setting.maxData < 2 ^ 31
  · rw [if_pos fits] at ran
    rw [← Option.some.inj ran]
    split
    case isTrue left =>
      have positiveBytes : setting.maxData ≤ nbytes / setting.maxData * setting.maxData :=
        Nat.le_mul_of_pos_left _ some
      rw [commReadChunk_memory]
      unfold Memory.move Memory.change
      rw [Function.update_self]
      unfold memmove
      rw [if_neg (by omega), chunked]
      exact before
    case isFalse whole =>
      rw [chunked]
      exact before
  · rw [if_neg fits] at ran
    cases ran

/-- A read moves its bytes where it needs no full chunk, or both addresses agree. -/
theorem commRead_moves_iff (room : payloadSize < setting.amMaxMedium) (src dest nbytes : Nat) :
    setting.Moves (setting.commRead src dest nbytes) setting.myProc setting.proc
        dest src nbytes ↔
      setting.myProc = setting.proc ∨ nbytes < setting.maxData ∨
        (src = dest ∧ nbytes / setting.maxData < 2 ^ 31) := by
  have positive : 0 < setting.maxData := by
    unfold maxData
    omega
  by_cases own : setting.myProc = setting.proc
  · refine ⟨fun _ => Or.inl own, fun _ memory buffer => ?_⟩
    obtain ⟨final, ran, moved, fitting⟩ := setting.localMemcpy_moves dest src nbytes memory buffer
    refine ⟨final, (if_pos own).trans ran, ?_, fitting⟩
    rw [moved, ← own]
  · constructor
    · intro moves
      by_contra wrong
      obtain ⟨-, wrong⟩ := not_or.1 wrong
      obtain ⟨many, wrong⟩ := not_or.1 wrong
      obtain ⟨final, ran, moved, -⟩ := moves (fun proc address =>
          if proc = setting.proc ∧ address = src then 1 else 0) fun _ => 0
      have outside := (if_neg own).symm.trans ran
      by_cases differ : src = dest
      · unfold commReadOutsideSharedMem transfer at outside
        rw [if_neg fun fits => wrong ⟨differ, fits⟩] at outside
        cases outside
      · have zero := commReadOutside_wrong own differ room (Nat.not_lt.1 many)
          (fun address => if_neg fun both => own both.1)
          (fun address => if_congr (and_iff_right rfl) rfl rfl) outside
        rw [moved] at zero
        unfold Memory.move Memory.change at zero
        rw [Function.update_self] at zero
        unfold memmove at zero
        rw [if_pos ⟨Nat.le_refl dest, by omega⟩, Nat.sub_self] at zero
        unfold bytesFrom at zero
        dsimp only at zero
        rw [if_pos ⟨rfl, Nat.add_zero src⟩] at zero
        exact absurd zero (by decide)
    · intro right memory buffer
      have sameOrShort := right.resolve_left own
      have fits : nbytes / setting.maxData < 2 ^ 31 := by
        rcases sameOrShort with short | same
        · rw [Nat.div_eq_of_lt short]
          decide
        · exact same.2
      have ran : ∃ final, setting.commReadOutsideSharedMem src dest nbytes
          { memory := memory, buffer := buffer, messages := [] } = some final ∧
            final.memory = memory.move setting.myProc setting.proc dest src
              nbytes := by
        rcases sameOrShort with short | same
        · refine ⟨_, if_pos fits, ?_⟩
          rw [Nat.div_eq_of_lt short, Nat.mod_eq_of_lt short, Nat.zero_mul]
          by_cases some : 0 < nbytes
          · rw [if_pos some, commReadChunk_memory]
            rfl
          · rw [if_neg some, Nat.eq_zero_of_not_pos some, Memory.move_zero]
            rfl
        · rw [same.1]
          exact transfer_memory own fits
            (fun offset state => setting.commReadChunk_memory _ dest dest offset _ state)
            (fun offset bytes state => setting.commReadChunk_memory
              setting.amMaxMedium dest dest offset bytes state)
      obtain ⟨final, ran, moved⟩ := ran
      exact ⟨final, (if_neg own).trans ran, moved,
        commRead_fitting (setting.fitting_start memory buffer) ran⟩

/--
A write moves its bytes where the counter of its loop fits, and a read where it
needs no full chunk, or the addresses on both images are the same.
-/
theorem outsideTransfers_move_iff (setting : Setting) (room : payloadSize < setting.amMaxMedium)
    (src dest nbytes : Nat) :
    (setting.Moves (setting.commRead src dest nbytes) setting.myProc setting.proc
        dest src nbytes ↔
      setting.myProc = setting.proc ∨ nbytes < setting.maxData ∨
        (src = dest ∧ nbytes / setting.maxData < 2 ^ 31)) ∧
    (setting.Moves (setting.commWrite dest src nbytes) setting.proc setting.myProc
        dest src nbytes ↔
      setting.myProc = setting.proc ∨ nbytes / setting.maxData < 2 ^ 31) :=
  ⟨commRead_moves_iff room src dest nbytes, commWrite_moves_iff room dest src nbytes⟩

/-- Two processes, with the smallest messages that GASNet allows. -/
def twoProcesses : Setting where
  myProc := 0
  proc := 1
  amMaxMedium := 512

theorem outsideTransfers_move_twoProcesses :
    twoProcesses.Moves (twoProcesses.commRead 4096 8192 471) 0 1 8192 4096 471 ∧
      twoProcesses.Moves (twoProcesses.commWrite 8192 4096 1000) 1 0 8192 4096
        1000 :=
  ⟨(outsideTransfers_move_iff twoProcesses (by decide) 4096 8192 471).1.2
      (Or.inr (Or.inl (by decide))),
    (outsideTransfers_move_iff twoProcesses (by decide) 4096 8192 1000).2.2
      (Or.inr (by decide))⟩

/-- A read of one full chunk does not move its bytes. -/
theorem fullChunk_not_moved :
    ¬ twoProcesses.Moves (twoProcesses.commRead 4096 8192 472) 0 1 8192 4096 472 := by
  intro moves
  have right := (@commRead_moves_iff twoProcesses (by decide) 4096 8192 472).1 moves
  exact absurd right (by decide)

end Setting

end OpenUH.Libcaf.OutsideTransfers
