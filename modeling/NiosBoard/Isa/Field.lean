import NiosBoard.Word

/-! # Fields of a machine word

The formats share the field `op` and overlap everywhere else:

    31      27 26      22 21      17 16       11 10      6 5     0
    |   a     |    b     |    c     |   opx     |  imm5   |  op  |
    |   a     |    b     |           imm16                |  op  |
    |                        imm26                        |  op  |
-/

namespace NiosBoard

inductive Field where
  | op
  | a
  | b
  | c
  | opx
  | imm5
  | imm16
  | imm26
  deriving DecidableEq, Repr

namespace Field

def low : Field → Nat
  | .op => 0
  | .a => 27
  | .b => 22
  | .c => 17
  | .opx => 11
  | .imm5 => 6
  | .imm16 => 6
  | .imm26 => 6

def width : Field → Nat
  | .op => 6
  | .a => 5
  | .b => 5
  | .c => 5
  | .opx => 6
  | .imm5 => 5
  | .imm16 => 16
  | .imm26 => 26

def get (f : Field) (w : Word) : BitVec f.width := w.extractLsb' f.low f.width

/-- The bits of the field, all set. -/
def mask (f : Field) : Word := (BitVec.allOnes f.width).setWidth 32 <<< f.low

/-- Replaces the field, keeping every other bit. -/
def set (f : Field) (w : Word) (value : BitVec f.width) : Word :=
  (w &&& ~~~f.mask) ||| (value.setWidth 32 <<< f.low)

end Field

namespace Word

def op (w : Word) : BitVec 6 := Field.op.get w

def a (w : Word) : BitVec 5 := Field.a.get w

def b (w : Word) : BitVec 5 := Field.b.get w

def c (w : Word) : BitVec 5 := Field.c.get w

def opx (w : Word) : BitVec 6 := Field.opx.get w

def imm5 (w : Word) : BitVec 5 := Field.imm5.get w

def imm16 (w : Word) : BitVec 16 := Field.imm16.get w

def imm26 (w : Word) : BitVec 26 := Field.imm26.get w

end Word

end NiosBoard
