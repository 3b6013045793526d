import NiosBoard.Assembly.Program
import NiosBoard.Machine.Memory
import NiosBoard.Machine.RegisterFile

/-! # The machine

Registers, memory and program counter, the bus that reports changes, and what a reset goes back to.
`Exec` is a computation on the machine that may fail; the machine it leaves behind is kept either
way.
-/

namespace NiosBoard

inductive RunState where
  /-- Nothing is loaded. -/
  | idle
  /-- A program is loaded and no instruction has run since. -/
  | loaded
  | running
  | halted
  deriving DecidableEq, Repr

/-- What a reset goes back to. -/
structure Snapshot where
  image : Array Byte
  start : Word
  entry : Word
  deriving DecidableEq, Repr

structure Machine where
  registers : RegisterFile
  pc : Word
  state : RunState
  /-- Instructions executed since the last load or reset. -/
  steps : Nat
  bus : EventBus
  snapshot : Option Snapshot
  memory : Memory
  deriving DecidableEq, Repr

abbrev Exec (ε α : Type) := EStateM ε Machine α

namespace Machine

def new : Machine where
  registers := RegisterFile.new
  pc := 0
  state := .idle
  steps := 0
  bus := EventBus.new
  snapshot := none
  memory := Memory.standard

def publish (m : Machine) (e : Event) : Machine := { m with bus := m.bus.publish e }

/-- Goes back to the state right after the last load; with nothing loaded, clears everything. A
disabled stack pointer is not initialised. -/
def reset : Exec MachineError Unit := fun m =>
  let m := { m with registers := m.registers.clear, memory := m.memory.reset, steps := 0 }
  match m.snapshot with
  | none => .ok () { m with pc := 0, state := .idle }
  | some s =>
    match m.memory.checkImage s.start s.image.size with
    | .error e => .error ⟨s.entry, .memory e⟩ m
    | .ok () =>
      .ok () { m with
        memory := m.memory.copyImage s.start s.image
        registers :=
          (m.registers.store RegIndex.stackPointer.toNat Board.stackTop).resetAccess
        pc := s.entry
        state := .loaded }

def loadAt (p : Program) (entry : Word) : Exec MachineError Unit := fun m =>
  if entry.toNat % 4 ≠ 0 then .error ⟨entry, .misalignedPc entry⟩ m
  else reset { m with snapshot := some ⟨p.image, p.start, entry⟩ }

def load (p : Program) : Exec MachineError Unit := loadAt p p.start

/-! ### Inspection -/

def peekRegister (m : Machine) (i : Nat) : Word := m.registers.peek i

def disassemble (m : Machine) (address : Word) : Except Fault Instruction :=
  match m.memory.peek .word address with
  | .error e => .error (.memory e)
  | .ok w =>
    match Instruction.decode w with
    | .error e => .error (.decode e)
    | .ok i => .ok i

def subscribe (m : Machine) : Nat × Machine :=
  let (id, bus) := m.bus.subscribe
  (id, { m with bus := bus })

def display (m : Machine) : String :=
  Style.blue "Registers:" ++ "\n" ++ m.registers.display ++
    Style.blue "pc:" ++ " " ++ m.pc.hex ++ "  " ++ Style.blue "steps:" ++ " " ++ m.steps.repr ++ "\n"

end Machine

end NiosBoard
