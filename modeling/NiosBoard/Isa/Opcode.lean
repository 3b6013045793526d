import NiosBoard.Isa.Field

/-! # Opcodes

One opcode per mnemonic, by instruction format. `Opcode.all` is the catalogue: mnemonics, codes and
operand shapes are functions on it, and both look-ups search it.
-/

namespace NiosBoard

inductive Condition where
  | eq
  | ne
  | lt
  | ge
  | ltu
  | geu
  deriving DecidableEq, Repr

inductive ArithI where
  | addi
  | andi
  | ori
  | xori
  | andhi
  | orhi
  | xorhi
  | muli
  deriving DecidableEq, Repr

/-- What a load brings into the register; `u` marks zero extension. -/
inductive LoadKind where
  | b
  | bu
  | h
  | hu
  | w
  deriving DecidableEq, Repr

/-- Opcodes of I-format words. Loads and stores come in a plain and an `io` variant that differ
in name only. -/
inductive ImmOp where
  | arith (op : ArithI)
  | compare (cond : Condition)
  | load (kind : LoadKind) (io : Bool)
  | store (width : Width) (io : Bool)
  | br
  | branch (cond : Condition)
  deriving DecidableEq, Repr

/-- Arithmetic and logic on two registers. The `mulx` operations give the upper half of the
64-bit product. -/
inductive Arith where
  | add
  | sub
  | and
  | or
  | xor
  | nor
  | mul
  | mulxss
  | mulxsu
  | mulxuu
  | div
  | divu
  deriving DecidableEq, Repr

inductive Shift where
  | sll
  | srl
  | sra
  | rol
  | ror
  deriving DecidableEq, Repr

/-- Shifts by a constant; there is no rotation to the right among them. -/
inductive ShiftI where
  | slli
  | srli
  | srai
  | roli
  deriving DecidableEq, Repr

inductive RegOp where
  | arith (op : Arith)
  | compare (cond : Condition)
  | shift (op : Shift)
  | shiftI (op : ShiftI)
  | jmp
  | callr
  | ret
  | nextpc
  deriving DecidableEq, Repr

inductive JumpOp where
  | call
  | jmpi
  deriving DecidableEq, Repr

inductive Opcode where
  | jump (op : JumpOp)
  | imm (op : ImmOp)
  | reg (op : RegOp)
  deriving DecidableEq, Repr

inductive WordFormat where
  | I
  | R
  | J
  deriving DecidableEq, Repr

inductive OperandShape where
  /-- `rC, rA, rB` in the R format, `rB, rA, imm` in the I format. -/
  | standard
  /-- `rA, rB, label` -/
  | branch
  /-- `label` -/
  | branchLabel
  /-- `rB, imm(rA)` -/
  | memory
  /-- `rA` -/
  | register
  /-- `rC, rA, imm5` -/
  | shift
  /-- `rC` -/
  | destination
  /-- `label`, an absolute word address -/
  | target
  | noOperand
  deriving DecidableEq, Repr

namespace Condition

def all : List Condition := [.eq, .ne, .lt, .ge, .ltu, .geu]

/-- The code of the comparison, in the field `op` with an immediate and in `opx` without. -/
def code : Condition → BitVec 6
  | .eq => 0x20
  | .ne => 0x18
  | .lt => 0x10
  | .ge => 0x08
  | .ltu => 0x30
  | .geu => 0x28

end Condition

namespace ArithI

def all : List ArithI := [.addi, .andi, .ori, .xori, .andhi, .orhi, .xorhi, .muli]

def code : ArithI → BitVec 6
  | .addi => 0x04
  | .andi => 0x0c
  | .ori => 0x14
  | .xori => 0x1c
  | .andhi => 0x2c
  | .orhi => 0x34
  | .xorhi => 0x3c
  | .muli => 0x24

end ArithI

namespace LoadKind

def all : List LoadKind := [.b, .bu, .h, .hu, .w]

def code : LoadKind → BitVec 6
  | .b => 0x07
  | .bu => 0x03
  | .h => 0x0f
  | .hu => 0x0b
  | .w => 0x17

end LoadKind

/-- The bit that tells the `io` variant of a load or store from the plain one. -/
def ioBit (io : Bool) : BitVec 6 := if io then 0x20 else 0

namespace ImmOp

def all : List ImmOp :=
  ArithI.all.map .arith ++ Condition.all.map .compare ++
  LoadKind.all.map (.load · false) ++ [Width.byte, .half, .word].map (.store · false) ++
  LoadKind.all.map (.load · true) ++ [Width.byte, .half, .word].map (.store · true) ++
  [.br] ++ Condition.all.map .branch

def code : ImmOp → BitVec 6
  | .arith op => op.code
  | .compare cond => cond.code
  | .load kind io => kind.code + ioBit io
  | .store .byte io => 0x05 + ioBit io
  | .store .half io => 0x0d + ioBit io
  | .store .word io => 0x15 + ioBit io
  | .br => 0x06
  | .branch cond => cond.code + 0x06

def mnemonic : ImmOp → String
  | .arith .addi => "addi"
  | .arith .andi => "andi"
  | .arith .ori => "ori"
  | .arith .xori => "xori"
  | .arith .andhi => "andhi"
  | .arith .orhi => "orhi"
  | .arith .xorhi => "xorhi"
  | .arith .muli => "muli"
  | .compare .eq => "cmpeqi"
  | .compare .ne => "cmpnei"
  | .compare .lt => "cmplti"
  | .compare .ge => "cmpgei"
  | .compare .ltu => "cmpltui"
  | .compare .geu => "cmpgeui"
  | .load .b false => "ldb"
  | .load .bu false => "ldbu"
  | .load .h false => "ldh"
  | .load .hu false => "ldhu"
  | .load .w false => "ldw"
  | .store .byte false => "stb"
  | .store .half false => "sth"
  | .store .word false => "stw"
  | .load .b true => "ldbio"
  | .load .bu true => "ldbuio"
  | .load .h true => "ldhio"
  | .load .hu true => "ldhuio"
  | .load .w true => "ldwio"
  | .store .byte true => "stbio"
  | .store .half true => "sthio"
  | .store .word true => "stwio"
  | .br => "br"
  | .branch .eq => "beq"
  | .branch .ne => "bne"
  | .branch .lt => "blt"
  | .branch .ge => "bge"
  | .branch .ltu => "bltu"
  | .branch .geu => "bgeu"

def shape : ImmOp → OperandShape
  | .arith _ => .standard
  | .compare _ => .standard
  | .load _ _ => .memory
  | .store _ _ => .memory
  | .br => .branchLabel
  | .branch _ => .branch

/-- Whether the immediate is read as signed: everything but logic and unsigned comparison. -/
def signedImmediate : ImmOp → Bool
  | .arith .addi => true
  | .arith .muli => true
  | .arith _ => false
  | .compare .ltu => false
  | .compare .geu => false
  | _ => true

end ImmOp

namespace RegOp

def all : List RegOp :=
  [Arith.add, .sub, .and, .or, .xor, .nor, .mul, .mulxss, .mulxsu, .mulxuu, .div, .divu].map .arith ++
  Condition.all.map .compare ++ [Shift.sll, .srl, .sra, .rol, .ror].map .shift ++
  [ShiftI.slli, .srli, .srai, .roli].map .shiftI ++ [.jmp, .callr, .ret, .nextpc]

def code : RegOp → BitVec 6
  | .arith .add => 0x31
  | .arith .sub => 0x39
  | .arith .and => 0x0e
  | .arith .or => 0x16
  | .arith .xor => 0x1e
  | .arith .nor => 0x06
  | .arith .mul => 0x27
  | .arith .mulxss => 0x1f
  | .arith .mulxsu => 0x17
  | .arith .mulxuu => 0x07
  | .arith .div => 0x25
  | .arith .divu => 0x24
  | .compare cond => cond.code
  | .shift .sll => 0x13
  | .shift .srl => 0x1b
  | .shift .sra => 0x3b
  | .shift .rol => 0x03
  | .shift .ror => 0x0b
  | .shiftI .slli => 0x12
  | .shiftI .srli => 0x1a
  | .shiftI .srai => 0x3a
  | .shiftI .roli => 0x02
  | .jmp => 0x0d
  | .callr => 0x1d
  | .ret => 0x05
  | .nextpc => 0x1c

def mnemonic : RegOp → String
  | .arith .add => "add"
  | .arith .sub => "sub"
  | .arith .and => "and"
  | .arith .or => "or"
  | .arith .xor => "xor"
  | .arith .nor => "nor"
  | .arith .mul => "mul"
  | .arith .mulxss => "mulxss"
  | .arith .mulxsu => "mulxsu"
  | .arith .mulxuu => "mulxuu"
  | .arith .div => "div"
  | .arith .divu => "divu"
  | .compare .eq => "cmpeq"
  | .compare .ne => "cmpne"
  | .compare .lt => "cmplt"
  | .compare .ge => "cmpge"
  | .compare .ltu => "cmpltu"
  | .compare .geu => "cmpgeu"
  | .shift .sll => "sll"
  | .shift .srl => "srl"
  | .shift .sra => "sra"
  | .shift .rol => "rol"
  | .shift .ror => "ror"
  | .shiftI .slli => "slli"
  | .shiftI .srli => "srli"
  | .shiftI .srai => "srai"
  | .shiftI .roli => "roli"
  | .jmp => "jmp"
  | .callr => "callr"
  | .ret => "ret"
  | .nextpc => "nextpc"

def shape : RegOp → OperandShape
  | .arith _ => .standard
  | .compare _ => .standard
  | .shift _ => .standard
  | .shiftI _ => .shift
  | .jmp => .register
  | .callr => .register
  | .ret => .noOperand
  | .nextpc => .destination

end RegOp

namespace JumpOp

def all : List JumpOp := [.call, .jmpi]

def code : JumpOp → BitVec 6
  | .call => 0x00
  | .jmpi => 0x01

def mnemonic : JumpOp → String
  | .call => "call"
  | .jmpi => "jmpi"

end JumpOp

def regFormatCode : BitVec 6 := 0x3a

namespace Opcode

def all : List Opcode := JumpOp.all.map .jump ++ ImmOp.all.map .imm ++ RegOp.all.map .reg

def mnemonic : Opcode → String
  | .jump op => op.mnemonic
  | .imm op => op.mnemonic
  | .reg op => op.mnemonic

def format : Opcode → WordFormat
  | .jump _ => .J
  | .imm _ => .I
  | .reg _ => .R

def shape : Opcode → OperandShape
  | .jump _ => .target
  | .imm op => op.shape
  | .reg op => op.shape

def code : Opcode → BitVec 6
  | .jump op => op.code
  | .imm op => op.code
  | .reg _ => regFormatCode

/-- The extended code, zero outside the R format. -/
def extendedCode : Opcode → BitVec 6
  | .reg op => op.code
  | _ => 0

def signedImmediate : Opcode → Bool
  | .imm op => op.signedImmediate
  | _ => true

/-- The key under which a word is looked up: the primary code, extended in the R format. -/
def key (o : Opcode) : BitVec 12 := o.extendedCode ++ o.code

def keyOfWord (w : Word) : BitVec 12 :=
  if Word.op w = regFormatCode then Word.opx w ++ Word.op w else (Word.op w).setWidth 12

def ofKey? (key : BitVec 12) : Option Opcode := all.find? (fun o => o.key == key)

def ofWord? (w : Word) : Option Opcode := ofKey? (keyOfWord w)

def ofLowercase? (name : Text) : Option Opcode := all.find? (fun o => o.mnemonic.toList == name)

def ofMnemonic? (name : Text) : Option Opcode := ofLowercase? (Text.lowercase name)

theorem mem_all (o : Opcode) : o ∈ all := by
  rcases o with (_ | _) | (op | c | ⟨k, io⟩ | ⟨w, io⟩ | _ | c) | (op | c | op | op | _ | _ | _ | _)
  all_goals first | decide | (cases op <;> decide) | (cases c <;> decide) |
    (cases k <;> cases io <;> decide) | (cases w <;> cases io <;> decide)

end Opcode

end NiosBoard
