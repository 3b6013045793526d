import NiosBoard.Isa.Operation
import NiosBoard.Machine.Basic

/-! # Executing instructions

After every instruction the machine adds 4 to the program counter, so a jump leaves the address
before its target. Every operand is read, and every check made, before anything is written.
-/

namespace NiosBoard.Machine

/-- Overwrites the program counter; it must be a word address. -/
def setPc (pc : Word) : Exec Fault Unit := fun m =>
  if pc.toNat % 4 ≠ 0 then .error (.misalignedPc pc) m else .ok () { m with pc := pc }

def jump (target : Word) : Exec Fault Unit := fun m =>
  if target.toNat % 4 ≠ 0 then .error (.misalignedPc target) m else setPc (target - 4) m

def checkRegister (i : RegIndex) : Exec Fault Unit := fun m =>
  match m.registers.check i.toNat with
  | .error e => .error (.register e) m
  | .ok () => .ok () m

def readRegister (i : RegIndex) : Exec Fault Word := fun m =>
  match m.registers.check i.toNat with
  | .error e => .error (.register e) m
  | .ok () => .ok (m.registers.peek i.toNat) { m with registers := m.registers.touch i.toNat }

/-- Writes a register and reports what it shows afterwards. -/
def writeRegister (i : RegIndex) (w : Word) : Exec Fault Unit := fun m =>
  match m.registers.check i.toNat with
  | .error e => .error (.register e) m
  | .ok () =>
    let registers := m.registers.store i.toNat w
    let shown := registers.peek i.toNat
    .ok () { m with registers := registers, bus := m.bus.publish (.register i.toNat shown) }

def loadMemory (width : Width) (address : Word) : Exec Fault Word := fun m =>
  match m.memory.checkMapped (Memory.accessed address width.bytes) with
  | .error e => .error (.memory e) m
  | .ok () =>
    let (bytes, memory) := m.memory.fetchAll (Memory.accessed address width.bytes)
    .ok (Word.ofBytes bytes) { m with memory := memory }

def storeMemory (width : Width) (address w : Word) : Exec Fault Unit := fun m =>
  match m.memory.checkWritable (Memory.accessed address width.bytes) with
  | .error e => .error (.memory e) m
  | .ok () =>
    let ⟨registers, pc, state, steps, bus, snapshot, memory⟩ := m
    let (memory, events) := memory.storeAll (Memory.stores width address w)
    .ok () ⟨registers, pc, state, steps, bus.publishAll events, snapshot, memory⟩

def getPc : Exec Fault Word := fun m => .ok m.pc m

def effectiveAddress (f : ImmFields) : Exec Fault Word := do
  return (← readRegister f.a) + f.signed

def execute : Instruction → Exec Fault Unit
  | .jump .call index => do
    let pc ← getPc
    jump (Instruction.jumpTarget pc index)
    writeRegister RegIndex.returnAddress (pc + 4)
  | .jump .jmpi index => do
    let pc ← getPc
    jump (Instruction.jumpTarget pc index)
  | .imm (.arith op) f => do
    let a ← readRegister f.a
    writeRegister f.b (op.eval a f)
  | .imm (.compare cond) f => do
    let a ← readRegister f.a
    writeRegister f.b (flag (cond.holds a (cond.operand f)))
  | .imm (.load kind _) f => do
    let address ← effectiveAddress f
    checkRegister f.b
    let v ← loadMemory kind.width address
    writeRegister f.b (kind.extend v)
  | .imm (.store width _) f => do
    let address ← effectiveAddress f
    let v ← readRegister f.b
    storeMemory width address v
  | .imm .br f => do
    let pc ← getPc
    setPc (pc + f.signed)
  | .imm (.branch cond) f => do
    let a ← readRegister f.a
    let b ← readRegister f.b
    if cond.holds a b then
      let pc ← getPc
      setPc (pc + f.signed)
  | .reg (.arith op) f => do
    let a ← readRegister f.a
    let b ← readRegister f.b
    match op.eval? a b with
    | some v => writeRegister f.c v
    | none => throw .divisionByZero
  | .reg (.compare cond) f => do
    let a ← readRegister f.a
    let b ← readRegister f.b
    writeRegister f.c (flag (cond.holds a b))
  | .reg (.shift op) f => do
    let a ← readRegister f.a
    let b ← readRegister f.b
    writeRegister f.c (op.eval a b.toNat)
  | .reg (.shiftI op) f => do
    let a ← readRegister f.a
    writeRegister f.c (op.shift.eval a f.imm5.toNat)
  | .reg .jmp f => do
    let target ← readRegister f.a
    jump target
  | .reg .callr f => do
    let target ← readRegister f.a
    let pc ← getPc
    jump target
    writeRegister RegIndex.returnAddress (pc + 4)
  | .reg .ret _ => do
    let target ← readRegister RegIndex.returnAddress
    jump target
  | .reg .nextpc f => do
    let pc ← getPc
    writeRegister f.c (pc + 4)

end NiosBoard.Machine
