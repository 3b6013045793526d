import NiosBoard.Isa.Instruction

/-! # What the operations compute

Pure functions on words, one per family of opcodes. Counts of shifts are taken modulo 32, products
modulo `2 ^ 32`, and division truncates towards zero.
-/

namespace NiosBoard

namespace Condition

def holds (cond : Condition) (a b : Word) : Bool :=
  match cond with
  | .eq => a == b
  | .ne => a != b
  | .lt => a.slt b
  | .ge => !a.slt b
  | .ltu => a.ult b
  | .geu => !a.ult b

/-- The immediate that the condition compares with: unsigned for an unsigned comparison. -/
def operand (cond : Condition) (f : ImmFields) : Word :=
  match cond with
  | .ltu => f.unsigned
  | .geu => f.unsigned
  | _ => f.signed

end Condition

def flag (b : Bool) : Word := if b then 1 else 0

def ArithI.eval (op : ArithI) (a : Word) (f : ImmFields) : Word :=
  match op with
  | .addi => a + f.signed
  | .andi => a &&& f.unsigned
  | .ori => a ||| f.unsigned
  | .xori => a ^^^ f.unsigned
  | .andhi => a &&& f.upper
  | .orhi => a ||| f.upper
  | .xorhi => a ^^^ f.upper
  | .muli => a * f.signed

def upperHalf (x : BitVec 64) : Word := x.extractLsb' 32 32

/-- The result of the operation; division by zero has none. -/
def Arith.eval? (op : Arith) (a b : Word) : Option Word :=
  match op with
  | .add => some (a + b)
  | .sub => some (a - b)
  | .and => some (a &&& b)
  | .or => some (a ||| b)
  | .xor => some (a ^^^ b)
  | .nor => some (~~~(a ||| b))
  | .mul => some (a * b)
  | .mulxss => some (upperHalf (a.signExtend 64 * b.signExtend 64))
  | .mulxsu => some (upperHalf (a.signExtend 64 * b.setWidth 64))
  | .mulxuu => some (upperHalf (a.setWidth 64 * b.setWidth 64))
  | .div => if b = 0 then none else some (a.sdiv b)
  | .divu => if b = 0 then none else some (a / b)

/-- Shifts or rotates by `count` modulo 32. -/
def Shift.eval (op : Shift) (a : Word) (count : Nat) : Word :=
  match op with
  | .sll => a <<< (count % 32)
  | .srl => a >>> (count % 32)
  | .sra => a.sshiftRight (count % 32)
  | .rol => a.rotateLeft (count % 32)
  | .ror => a.rotateRight (count % 32)

def ShiftI.shift : ShiftI → Shift
  | .slli => .sll
  | .srli => .srl
  | .srai => .sra
  | .roli => .rol

namespace LoadKind

def width : LoadKind → Width
  | .b => .byte
  | .bu => .byte
  | .h => .half
  | .hu => .half
  | .w => .word

/-- Fits what was loaded, with zeros above its width, to a register. -/
def extend (kind : LoadKind) (v : Word) : Word :=
  match kind with
  | .b => (v.setWidth 8).signExtend 32
  | .h => (v.setWidth 16).signExtend 32
  | _ => v

end LoadKind

end NiosBoard
