import NiosBoard.Isa.Instruction
import NiosBoard.Text.Style

/-! # Faults

Whatever stops an instruction. A machine error adds the address of the instruction.
-/

namespace NiosBoard

/-- Register `index` is disabled, or there is no such register. -/
structure RegisterError where
  index : Nat
  deriving DecidableEq, Repr

inductive MemoryErrorKind where
  /-- No block contains the address. -/
  | unmapped
  /-- The device at the address refuses the store. -/
  | readOnly
  /-- A block was to be added on top of another one. -/
  | overlap
  /-- An image does not fit in its block, or a block in the address space. -/
  | tooLarge
  deriving DecidableEq, Repr

structure MemoryError where
  address : Word
  kind : MemoryErrorKind
  deriving DecidableEq, Repr

inductive Fault where
  | decode (e : DecodeError)
  | register (e : RegisterError)
  | memory (e : MemoryError)
  | misalignedPc (pc : Word)
  | divisionByZero
  deriving DecidableEq, Repr

structure MachineError where
  pc : Word
  fault : Fault
  deriving DecidableEq, Repr

def RegisterError.message (e : RegisterError) : String :=
  "Register r" ++ Style.blue e.index.repr ++ " is disabled"

def MemoryErrorKind.message : MemoryErrorKind → String
  | .unmapped => "Access to unmapped memory"
  | .readOnly => "Write to read-only device"
  | .overlap => "Memory block overlaps another block"
  | .tooLarge => "Program image does not fit in memory"

def MemoryError.message (e : MemoryError) : String :=
  e.kind.message ++ " at address " ++ Style.yellow e.address.hex

def Fault.message : Fault → String
  | .decode e => e.message
  | .register e => e.message
  | .memory e => e.message
  | .misalignedPc pc => "Program counter set to misaligned address " ++ Style.yellow pc.hex
  | .divisionByZero => "Division by zero"

def MachineError.message (e : MachineError) : String :=
  Style.bold (Style.red "fault at pc") ++ " " ++ Style.blue e.pc.hex ++ ": " ++ e.fault.message

end NiosBoard
