import NiosBoard.Isa.Opcode
import NiosBoard.Isa.Register
import NiosBoard.Text.Record

/-! # Instructions and their words

An instruction is an opcode with the fields of its format, each as wide as in the word, so every
instruction has a word. `encode` packs it, `decode` finds the opcode by its key and slices the
fields out again.
-/

namespace NiosBoard

structure ImmFields where
  a : RegIndex
  b : RegIndex
  imm : BitVec 16
  deriving DecidableEq, Repr

structure RegFields where
  a : RegIndex
  b : RegIndex
  c : RegIndex
  imm5 : BitVec 5
  deriving DecidableEq, Repr

inductive Instruction where
  | jump (op : JumpOp) (index : BitVec 26)
  | imm (op : ImmOp) (fields : ImmFields)
  | reg (op : RegOp) (fields : RegFields)
  deriving DecidableEq, Repr

/-- No opcode of the catalogue has the key of this word. -/
structure DecodeError where
  word : Word
  deriving DecidableEq, Repr

def DecodeError.message (e : DecodeError) : String :=
  "Word " ++ e.word.hex ++ " is not a valid instruction"

namespace ImmFields

def signed (f : ImmFields) : Word := f.imm.signExtend 32

def unsigned (f : ImmFields) : Word := f.imm.setWidth 32

/-- The immediate in the upper half of a word. -/
def upper (f : ImmFields) : Word := f.imm ++ 0#16

end ImmFields

namespace Instruction

def opcode : Instruction → Opcode
  | .jump op _ => .jump op
  | .imm op _ => .imm op
  | .reg op _ => .reg op

def encode : Instruction → Word
  | .jump op index => index ++ op.code
  | .imm op f => f.a ++ f.b ++ f.imm ++ op.code
  | .reg op f => f.a ++ f.b ++ f.c ++ op.code ++ f.imm5 ++ regFormatCode

def ofFields (o : Opcode) (w : Word) : Instruction :=
  match o with
  | .jump op => .jump op (Word.imm26 w)
  | .imm op => .imm op ⟨Word.a w, Word.b w, Word.imm16 w⟩
  | .reg op => .reg op ⟨Word.a w, Word.b w, Word.c w, Word.imm5 w⟩

def decode (w : Word) : Except DecodeError Instruction :=
  match Opcode.ofWord? w with
  | some o => .ok (ofFields o w)
  | none => .error ⟨w⟩

/-- The absolute byte address that a J-format instruction at `pc` goes to, in the 256 MB segment
of `pc`. -/
def jumpTarget (pc : Word) (index : BitVec 26) : Word :=
  (pc &&& 0xf0000000) ||| (index ++ 0#2).setWidth 32

/-- The immediate as it is written: signed or unsigned as the opcode says. -/
def shownImmediate (op : ImmOp) (imm : BitVec 16) : Int :=
  if op.signedImmediate then imm.toInt else imm.toNat

def commaSeparated : List Text → Text
  | [] => []
  | [t] => t
  | t :: rest => t ++ ',' :: ' ' :: commaSeparated rest

def operands : Instruction → List Text
  | .jump _ index => [Text.hexadecimal (index.toNat * 4)]
  | .imm op f =>
    let shown := Text.intDecimal (shownImmediate op f.imm)
    match op.shape with
    | .branch => [f.a.name, f.b.name, shown]
    | .branchLabel => [shown]
    | .memory => [f.b.name, shown ++ '(' :: f.a.name ++ [')']]
    | _ => [f.b.name, f.a.name, shown]
  | .reg op f =>
    match op.shape with
    | .shift => [f.c.name, f.a.name, Text.natDecimal f.imm5.toNat]
    | .register => [f.a.name]
    | .destination => [f.c.name]
    | .noOperand => []
    | _ => [f.c.name, f.a.name, f.b.name]

def text (i : Instruction) : Text :=
  match i.operands with
  | [] => i.opcode.mnemonic.toList
  | ops => i.opcode.mnemonic.toList ++ ' ' :: commaSeparated ops

/-- The opcode and the fields of the word, each as an unsigned number. -/
def record (i : Instruction) : String :=
  i.opcode.mnemonic.capitalize ++ "(" ++
    (match i with
    | .jump _ index => Text.numberRecord "JType" [("imm", index.toNat)]
    | .imm _ f =>
      Text.numberRecord "IType" [("a", f.a.toNat), ("b", f.b.toNat), ("imm", f.imm.toNat)]
    | .reg _ f =>
      Text.numberRecord "RType"
        [("a", f.a.toNat), ("b", f.b.toNat), ("c", f.c.toNat), ("imm5", f.imm5.toNat)]) ++ ")"

end Instruction

end NiosBoard
