import NiosBoard.Assembly.Error
import NiosBoard.Expression.Evaluate
import NiosBoard.Isa.Instruction
import NiosBoard.Text.Operands

/-! # Instructions with operands still to be evaluated

The first pass knows the registers and the address of an instruction, but its immediate may name
labels that come later. `Pending.instruction` evaluates it against the finished symbols. Values too
wide for their field are truncated.
-/

namespace NiosBoard

def OperandShape.arity : OperandShape → Nat
  | .standard => 3
  | .branch => 3
  | .shift => 3
  | .memory => 2
  | .branchLabel => 1
  | .register => 1
  | .destination => 1
  | .target => 1
  | .noOperand => 0

structure Pending where
  opcode : Opcode
  a : RegIndex
  b : RegIndex
  c : RegIndex
  expr : Option Text
  line : Nat
  address : Word
  deriving DecidableEq, Repr

namespace Pending

def register (operand : Text) : Except Cause RegIndex :=
  match RegIndex.ofName? (Text.trim operand) with
  | some i => .ok i
  | none =>
    let found := Text.trim operand
    .error (.statement (.expectedRegister (if found = [] then none else some found)))

/-- An operand that is evaluated later; it must not be empty. -/
def expression (operand : Text) : Except Cause (Option Text) :=
  if operand = [] then .error (.expression .empty) else .ok (some operand)

/-- Reads the operands of an opcode, placed at `address`, in the order they are written. -/
def ofOperands (o : Opcode) (line : Nat) (address : Word) (operands : Text) :
    Except Cause Pending :=
  match o.shape, Text.splitOperands operands with
  | .standard, [x, y, z] =>
    match o.format with
    | .R => do
      let c ← register x
      let a ← register y
      let b ← register z
      return ⟨o, a, b, c, none, line, address⟩
    | _ => do
      let b ← register x
      let a ← register y
      let expr ← expression z
      return ⟨o, a, b, 0, expr, line, address⟩
  | .branch, [x, y, z] => do
    let a ← register x
    let b ← register y
    let expr ← expression z
    return ⟨o, a, b, 0, expr, line, address⟩
  | .shift, [x, y, z] => do
    let c ← register x
    let a ← register y
    let expr ← expression z
    return ⟨o, a, 0, c, expr, line, address⟩
  | .memory, [x, y] => do
    let b ← register x
    match Text.memoryOperand? y with
    | none => throw (.statement (.expectedMemoryOperand y))
    | some (offset, base) =>
      let a ← register base
      return ⟨o, a, b, 0, some (if offset = [] then ['0'] else offset), line, address⟩
  | .branchLabel, [x] => do
    let expr ← expression x
    return ⟨o, 0, 0, 0, expr, line, address⟩
  | .target, [x] => do
    let expr ← expression x
    return ⟨o, 0, 0, 0, expr, line, address⟩
  | .register, [x] => do
    let a ← register x
    return ⟨o, a, 0, if o = .reg .callr then RegIndex.returnAddress else 0, none, line, address⟩
  | .destination, [x] => do
    let c ← register x
    return ⟨o, 0, 0, c, none, line, address⟩
  | .noOperand, [] =>
    .ok ⟨o, if o = .reg .ret then RegIndex.returnAddress else 0, 0, 0, none, line, address⟩
  | shape, found => .error (.statement (.operandCount o.mnemonic shape.arity found.length))

def value (p : Pending) (symbols : Symbols) : Except LineError Value :=
  match p.expr with
  | none => .ok 0
  | some t =>
    match Expression.evaluate symbols t with
    | .ok v => .ok v
    | .error e => .error (Cause.atLine (.expression e) p.line)

/-- The immediate of an I-format instruction at `address`: branches count from the instruction
after them. -/
def immediate (op : ImmOp) (address : Word) (v : Value) : BitVec 16 :=
  match op.shape with
  | .branch => (v - (address.setWidth 64 + 4)).setWidth 16
  | .branchLabel => (v - (address.setWidth 64 + 4)).setWidth 16
  | _ => v.setWidth 16

def instruction (p : Pending) (symbols : Symbols) : Except LineError Instruction := do
  let v ← p.value symbols
  match p.opcode with
  | .imm op => return .imm op ⟨p.a, p.b, immediate op p.address v⟩
  | .reg op => return .reg op ⟨p.a, p.b, p.c, v.setWidth 5⟩
  | .jump op => return .jump op (v.extractLsb' 2 26)

end Pending

end NiosBoard
