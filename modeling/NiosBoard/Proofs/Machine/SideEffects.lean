import NiosBoard.Proofs.Machine.ByteAccess
import NiosBoard.Proofs.Machine.Failure

/-! # What a failing step leaves

A step that fails has fetched its word, and nothing else. The fetch reads memory as a program would:
where a serial line answers at the program counter it takes the waiting character, and the step does
not give it back. Everything outside the serial lines is as it was.
-/

namespace NiosBoard

namespace Device

/-- The device without what a serial line holds. -/
def withoutSerial : Device → Device
  | .uart _ => .uart Uart.new
  | d => d

theorem withoutSerial_read (d : Device) (offset : Nat) :
    (d.read offset).2.withoutSerial = d.withoutSerial := by
  cases d <;> rfl

/-- A character has arrived that no read has taken. -/
def CharacterWaits : Device → Prop
  | .uart d => d.ready = true ∨ d.queue ≠ []
  | _ => False

theorem read_of_not_characterWaits {d : Device} (h : ¬ d.CharacterWaits) (offset : Nat) :
    (d.read offset).2 = d := by
  cases d with
  | leds d => rfl
  | switches d => rfl
  | buttons d => rfl
  | uart d =>
    obtain ⟨rx, ready, queue⟩ := d
    simp only [CharacterWaits, not_or, Bool.not_eq_true, not_not] at h
    obtain ⟨rfl, rfl⟩ := h
    simp only [read, Uart.read, Uart.refill]
    split
    · rfl
    split <;> rfl

end Device

namespace Memory

variable {m : Memory}

/-! ### Reading -/

theorem putDevice_self {address : Word} {b : Block} {d : Device}
    (hBlock : m.block? address = some b) (hDevice : b.device? m.panel = some d) :
    m.putDevice address b d = m := by
  obtain ⟨name, start, bytes | ⟨d₁, n⟩ | ⟨i, n⟩⟩ := b
  · cases hDevice
  · cases hDevice
    have hSame : updateFirst address (fun b => { b with backing := .device d n }) m.blocks =
        m.blocks := by
      apply updateFirst_eq_self
      intro c hc
      cases hBlock.symm.trans hc
      rfl
    simp only [putDevice, hSame]
  · cases hDevice
    cases i <;> rfl

def CharacterWaits (m : Memory) (address : Word) : Prop :=
  ∃ b d, m.block? address = some b ∧ b.device? m.panel = some d ∧ d.CharacterWaits

theorem fetch_of_not_characterWaits {address : Word} (h : ¬ m.CharacterWaits address) :
    (m.fetch address).2 = m := by
  unfold fetch
  split
  · rfl
  next b hBlock =>
  split
  · rfl
  next d hDevice =>
  have hRead : ¬ d.CharacterWaits := fun hWaits => h ⟨b, d, hBlock, hDevice, hWaits⟩
  simp only [Device.read_of_not_characterWaits hRead]
  exact putDevice_self hBlock hDevice

theorem fetchAll_of_not_characterWaits {addresses : List Word}
    (h : ∀ a ∈ addresses, ¬ m.CharacterWaits a) : (m.fetchAll addresses).2 = m := by
  induction addresses with
  | nil => rfl
  | cons a rest ih =>
    simp only [fetchAll, fetch_of_not_characterWaits (h a List.mem_cons_self)]
    apply ih
    intro b hb
    exact h b (List.mem_cons_of_mem a hb)

/-! ### Everything else -/

def withoutSerialBlock (b : Block) : Block :=
  match b.backing with
  | .device d n => { b with backing := .device d.withoutSerial n }
  | _ => b

/-- The memory without what its serial lines hold. -/
def withoutSerial (m : Memory) : Memory :=
  { m with
    blocks := m.blocks.map withoutSerialBlock
    panel := { m.panel with uart := Uart.new } }

theorem withoutSerial_fetch (m : Memory) (address : Word) :
    (m.fetch address).2.withoutSerial = m.withoutSerial := by
  unfold fetch
  split
  · rfl
  next b hBlock =>
  split
  · rfl
  next d hDevice =>
  obtain ⟨name, start, bytes | ⟨d₁, n⟩ | ⟨i, n⟩⟩ := b
  · cases hDevice
  · cases hDevice
    simp only [withoutSerial, putDevice, Memory.mk.injEq, and_true]
    apply map_updateFirst
    intro c hc
    cases hBlock.symm.trans hc
    simp only [withoutSerialBlock, Device.withoutSerial_read]
  · cases hDevice
    cases i <;> rfl

theorem withoutSerial_fetchAll (m : Memory) (addresses : List Word) :
    (m.fetchAll addresses).2.withoutSerial = m.withoutSerial := by
  induction addresses generalizing m with
  | nil => rfl
  | cons a rest ih => exact (ih _).trans (withoutSerial_fetch m a)

end Memory

namespace Machine

variable {m m' : Machine}

/-- The machine after the word at its program counter was read, if it can be. -/
def fetched (m : Machine) : Machine := left (loadMemory .word m.pc m)

theorem memory_fetched (m : Machine) :
    m.fetched.memory = m.memory ∨
      m.fetched.memory = (m.memory.fetchAll (Memory.accessed m.pc Width.word.bytes)).2 := by
  unfold fetched loadMemory
  split
  · exact .inl rfl
  · exact .inr rfl

theorem agrees_resetAccess (m : Machine) :
    Agrees m { m with registers := m.registers.resetAccess } :=
  ⟨m.registers.peek_resetAccess, m.registers.isEnabled_resetAccess, rfl, rfl, rfl, rfl, rfl⟩

/-- Forgetting what happened to the registers before the fetch makes no other difference. -/
theorem agrees_left_loadMemory (m : Machine) :
    Agrees m.fetched
      (left (loadMemory .word m.pc { m with registers := m.registers.resetAccess })) := by
  unfold fetched loadMemory
  simp only
  split
  · exact agrees_resetAccess m
  · exact agrees_resetAccess _

theorem stepWord_error {w : Word} {f : Fault} (h : stepWord w m = .error f m') : Agrees m m' := by
  unfold stepWord at h
  split at h
  · cases h
  split at h
  · cases h
    exact .refl m
  split at h
  · next hExecute =>
    cases h
    exact agrees_of_execute_error hExecute
  · cases h

theorem step_error {e : MachineError} (h : step m = .error e m') :
    e.pc = m.pc ∧ m'.pc = m.pc ∧ Agrees m.fetched m' := by
  unfold step at h
  split at h
  · cases h
  simp only at h
  have hFetch := agrees_left_loadMemory m
  cases hResult : (loadMemory .word m.pc >>= stepWord)
      { m with registers := m.registers.resetAccess } with
  | ok b m₁ =>
    rw [hResult] at h
    cases h
  | error f m₁ =>
    rw [hResult] at h
    cases h
    have hAgrees : Agrees m.fetched m₁ := by
      rcases bind_eq_error hResult with hLoad | ⟨w, m₂, hLoad, hStep⟩
      · rw [hLoad] at hFetch
        exact hFetch
      · rw [hLoad] at hFetch
        exact hFetch.trans (stepWord_error hStep)
    exact ⟨rfl, rfl, hAgrees.value, hAgrees.enabled, hAgrees.state, hAgrees.steps, hAgrees.bus,
      hAgrees.snapshot, hAgrees.memory⟩

theorem fetched_eq (m : Machine) : m.fetched = { m with memory := m.fetched.memory } := by
  unfold fetched loadMemory
  split <;> rfl

theorem withoutSerial_fetched (m : Machine) :
    m.fetched.memory.withoutSerial = m.memory.withoutSerial := by
  rcases memory_fetched m with hMemory | hMemory
  · rw [hMemory]
  · rw [hMemory, Memory.withoutSerial_fetchAll]

theorem memory_fetched_of_not_characterWaits
    (h : ∀ a ∈ Memory.accessed m.pc 4, ¬ m.memory.CharacterWaits a) :
    m.fetched.memory = m.memory := by
  rcases memory_fetched m with hMemory | hMemory
  · exact hMemory
  · exact hMemory.trans (Memory.fetchAll_of_not_characterWaits h)

end Machine

/-! ### The serial line of the board -/

namespace Memory

/-- Above program RAM, the blocks after it answer. -/
theorem block?_of_size_le {m : Memory} {name : Text} {bytes : Array Byte} {rest : List Block}
    {address : Word} (hBlocks : m.blocks = ⟨name, Board.ramStart, .ram bytes⟩ :: rest)
    (hAbove : bytes.size ≤ address.toNat) :
    m.block? address = rest.find? (·.contains address) := by
  rw [block?, hBlocks, List.find?_cons_of_neg]
  rw [Block.contains, decide_eq_true_iff, Nat.not_lt]
  exact hAbove.trans_eq (congrArg BitVec.toNat (BitVec.sub_zero address)).symm

theorem fetch_input {m : Memory} {address start : Word} {name : Text} {i : Input} {n : Nat}
    (h : m.block? address = some ⟨name, start, .input i n⟩) :
    m.fetch address =
      (((m.panel.device i).read (address - start).toNat).1,
        { m with panel := m.panel.install ((m.panel.device i).read (address - start).toNat).2 }) := by
  simp only [fetch, h]
  rfl

/-- The memory of the board with what its RAM and its serial line hold. The bytes of the RAM stay
abstract: nothing below reads them. -/
def board (bytes : Array Byte) (u : Uart) : Memory where
  blocks := ⟨"ram".toList, Board.ramStart, .ram bytes⟩ :: standard.blocks.tail
  panel := { Panel.new with uart := u }
  notifyWrites := false

variable {bytes : Array Byte} {address : Word}

theorem block?_board (hSize : bytes.size = Board.ramSize) (u : Uart)
    (h : Board.ramSize ≤ address.toNat) :
    (board bytes u).block? address = standard.blocks.tail.find? (·.contains address) :=
  block?_of_size_le rfl (hSize.trans_le h)

theorem block?_board_of_mem_accessed (hSize : bytes.size = Board.ramSize) (u : Uart) {start : Word}
    {answer : Option Block} (hAbove : ∀ i < 4, Board.ramSize ≤ (start + BitVec.ofNat 32 i).toNat)
    (hAnswer : ∀ i < 4, standard.blocks.tail.find? (·.contains (start + BitVec.ofNat 32 i)) = answer)
    (h : address ∈ accessed start 4) : (board bytes u).block? address = answer := by
  obtain ⟨i, hi, rfl⟩ := List.mem_map.mp h
  rw [List.mem_range] at hi
  exact (block?_board hSize u (hAbove i hi)).trans (hAnswer i hi)

theorem block?_uartStart (hSize : bytes.size = Board.ramSize) (u : Uart)
    (h : address ∈ accessed Board.uartStart 4) :
    (board bytes u).block? address =
      some ⟨"uart".toList, Board.uartStart, .input .uart Board.deviceSize⟩ :=
  block?_board_of_mem_accessed hSize u (by decide) (by decide) h

theorem block?_pastRam (hSize : bytes.size = Board.ramSize) (u : Uart)
    (h : address ∈ accessed 0x00100000 4) : (board bytes u).block? address = none :=
  block?_board_of_mem_accessed hSize u (by decide) (by decide) h

theorem accessed_uartStart : accessed Board.uartStart 4 =
    [Board.uartStart, Board.uartStart + 1, Board.uartStart + 2, Board.uartStart + 3] := rfl

/-- The first of the four reads takes the character, and the status is read after that. -/
theorem fetchAll_uartStart (hSize : bytes.size = Board.ramSize) (c : Byte) :
    (board bytes ⟨0, false, [c]⟩).fetchAll (accessed Board.uartStart 4) =
      ([c, 0, 2, 0], board bytes ⟨c, false, []⟩) := by
  have hFetch : ∀ u, ∀ a ∈ accessed Board.uartStart 4, (board bytes u).fetch a =
      ((u.read (a - Board.uartStart).toNat).1,
        board bytes (u.read (a - Board.uartStart).toNat).2) := by
    intro u a ha
    exact fetch_input (block?_uartStart hSize u ha)
  rw [accessed_uartStart] at hFetch ⊢
  simp only [List.mem_cons, List.not_mem_nil, or_false, forall_eq_or_imp, forall_eq] at hFetch
  simp only [fetchAll, hFetch]
  rfl

end Memory

namespace Machine

variable {bytes : Array Byte}

theorem loadMemory_uartStart {m : Machine} {c : Byte} (hSize : bytes.size = Board.ramSize)
    (h : m.memory = Memory.board bytes ⟨0, false, [c]⟩) :
    loadMemory .word Board.uartStart m =
      .ok (Word.ofBytes [c, 0, 2, 0]) { m with memory := Memory.board bytes ⟨c, false, []⟩ } := by
  have hMapped : m.memory.checkMapped (Memory.accessed Board.uartStart Width.word.bytes) =
      .ok () := by
    apply Memory.checkMapped_eq_ok
    intro a ha
    rw [Memory.isMapped_eq_isSome, h, Memory.block?_uartStart hSize _ ha, Option.isSome_some]
  have hFetch : m.memory.fetchAll (Memory.accessed Board.uartStart Width.word.bytes) =
      ([c, 0, 2, 0], Memory.board bytes ⟨c, false, []⟩) := by
    rw [h]
    exact Memory.fetchAll_uartStart hSize c
  rw [loadMemory]
  simp only [hMapped, hFetch]

/-- The word is no instruction, so the step fails, after its fetch has taken the character. -/
theorem step_uartStart {m : Machine} (hSize : bytes.size = Board.ramSize) (hState : m.state ≠ .halted)
    (hPc : m.pc = Board.uartStart) (h : m.memory = Memory.board bytes ⟨0, false, [0xff]⟩) :
    step m = .error ⟨Board.uartStart, .decode ⟨0x000200ff⟩⟩
      { m with
        registers := m.registers.resetAccess
        memory := Memory.board bytes ⟨0xff, false, []⟩ } := by
  obtain ⟨registers, pc, state, steps, bus, snapshot, memory⟩ := m
  subst hPc
  subst h
  have hLoad := loadMemory_uartStart (m := ⟨registers.resetAccess, Board.uartStart, state, steps, bus,
    snapshot, Memory.board bytes ⟨0, false, [0xff]⟩⟩) hSize rfl
  rw [step, if_neg hState]
  simp only [bind_eq_of_ok hLoad]
  rfl

theorem step_of_block?_eq_none {m : Machine} (hState : m.state ≠ .halted)
    (h : m.memory.block? m.pc = none) :
    step m = .error ⟨m.pc, .memory ⟨m.pc, .unmapped⟩⟩
      { m with registers := m.registers.resetAccess } := by
  have hMapped : m.memory.checkMapped (Memory.accessed m.pc Width.word.bytes) =
      .error ⟨m.pc, .unmapped⟩ := by
    show m.memory.checkMapped ((m.pc + 0#32) :: _) = _
    rw [BitVec.add_zero, Memory.checkMapped, if_neg]
    rw [Memory.isMapped_eq_isSome, h]
    exact Bool.false_ne_true
  have hLoad : loadMemory .word m.pc { m with registers := m.registers.resetAccess } =
      .error (.memory ⟨m.pc, .unmapped⟩) { m with registers := m.registers.resetAccess } := by
    rw [loadMemory]
    simp only [hMapped]
  rw [step, if_neg hState]
  simp only [bind_eq_of_error stepWord hLoad]
  rfl

def outside : Machine := new.apply (.setPc 0x00100000)

theorem memory_outside :
    outside.memory = Memory.board (Array.replicate Board.ramSize 0) Uart.new := rfl

def listening : Machine :=
  (new.apply (.memory (.feedSerial 0xff))).apply (.setPc Board.uartStart)

/-- A step that fails reports the program counter it began with and changes nothing but what the
fetch of its word takes from serial lines. Where no character waits, that is nothing. -/
theorem failed_step_keeps_all_but_serial {e : MachineError} (h : step m = .error e m') :
    e.pc = m.pc ∧ m'.pc = m.pc ∧ Agrees { m with memory := m'.memory } m' ∧
      m'.memory = m.fetched.memory ∧ m'.memory.withoutSerial = m.memory.withoutSerial ∧
      ((∀ a ∈ Memory.accessed m.pc 4, ¬ m.memory.CharacterWaits a) → m'.memory = m.memory) := by
  obtain ⟨hFault, hPc, hAgrees⟩ := step_error h
  have hMemory := hAgrees.memory
  rw [fetched_eq] at hAgrees
  rw [hMemory]
  refine ⟨hFault, hPc, hAgrees, rfl, withoutSerial_fetched m, ?_⟩
  intro hQuiet
  exact memory_fetched_of_not_characterWaits hQuiet

theorem failed_step_keeps_all_but_serial_unmapped :
    ∃ m', step outside = .error ⟨0x00100000, .memory ⟨0x00100000, .unmapped⟩⟩ m' ∧
      (∀ a ∈ Memory.accessed outside.pc 4, ¬ outside.memory.CharacterWaits a) ∧
      m'.pc = 0x00100000 ∧ m'.memory = outside.memory := by
  have hBlock : ∀ a ∈ Memory.accessed outside.pc 4, outside.memory.block? a = none := by
    intro a ha
    rw [memory_outside]
    exact Memory.block?_pastRam Array.size_replicate _ ha
  have hStep := step_of_block?_eq_none (m := outside) nofun (hBlock _ List.mem_cons_self)
  have hQuiet : ∀ a ∈ Memory.accessed outside.pc 4, ¬ outside.memory.CharacterWaits a := by
    rintro a ha ⟨b, d, hSome, -⟩
    cases (hBlock a ha).symm.trans hSome
  obtain ⟨-, hPc, -, -, -, hMemory⟩ := failed_step_keeps_all_but_serial hStep
  exact ⟨_, hStep, hQuiet, hPc, hMemory hQuiet⟩

/-- On the serial line of the board a step fails that has taken a character. -/
theorem failed_step_takes_character :
    Reachable listening ∧
      ∃ m', step listening = .error ⟨Board.uartStart, .decode ⟨0x000200ff⟩⟩ m' ∧
        listening.memory.panel.uart = ⟨0, false, [0xff]⟩ ∧
        m'.memory.panel.uart = ⟨0xff, false, []⟩ := by
  have hMemory : listening.memory =
      Memory.board (Array.replicate Board.ramSize 0) ⟨0, false, [0xff]⟩ := rfl
  refine ⟨(Leads.refl.op _).op _, _,
    step_uartStart Array.size_replicate ?_ rfl hMemory, ?_, rfl⟩
  · exact nofun
  · rw [hMemory]
    rfl

end Machine

end NiosBoard
