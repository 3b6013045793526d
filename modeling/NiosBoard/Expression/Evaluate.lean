import NiosBoard.Expression.Token
import NiosBoard.Word

/-! # Evaluation of operand expressions

Operators in five tiers, tightest first: `<<` `>>` `>>>`, then `&`, then `|` `^`, then `*` `/` `%`,
then `+` `-`; all associate to the left. The signs `-`, `+` and `~` bind tighter than any of them.
A `%` in operand position opens a relocation, in operator position it is the remainder. Values are
computed as the operands are read, so the error reported is the first one met from the left.
-/

namespace NiosBoard

/-- The parts of an address that two 16-bit immediates rebuild. -/
inductive Relocation where
  | lo
  | hi
  | hiadj
  deriving DecidableEq, Repr

namespace Relocation

def ofName? (name : Text) : Option Relocation :=
  if Text.lowercase name = "lo".toList then some .lo
  else if Text.lowercase name = "hi".toList then some .hi
  else if Text.lowercase name = "hiadj".toList then some .hiadj
  else none

/-- `lo` is bits 0 to 15 and `hi` bits 16 to 31; `hiadj` is `hi` plus bit 15, which makes up for a
`lo` that is sign-extended when it is added. -/
def apply : Relocation → Value → Value
  | .lo, x => x &&& 0xffff
  | .hi, x => x.sshiftRight 16 &&& 0xffff
  | .hiadj, x => (x.sshiftRight 16 + (x.sshiftRight 15 &&& 1)) &&& 0xffff

end Relocation

/-- The operation on 64-bit words. Shift counts are taken modulo 64; division truncates. -/
def BinaryOp.apply (op : BinaryOp) (a b : Value) : Except ExpressionError Value :=
  match op with
  | .shl => .ok (a <<< (b.toNat % 64))
  | .shr => .ok (a.sshiftRight (b.toNat % 64))
  | .ushr => .ok (a >>> (b.toNat % 64))
  | .and => .ok (a &&& b)
  | .or => .ok (a ||| b)
  | .xor => .ok (a ^^^ b)
  | .mul => .ok (a * b)
  | .div => if b = 0 then .error .divisionByZero else .ok (a.sdiv b)
  | .rem => if b = 0 then .error .divisionByZero else .ok (a.srem b)
  | .add => .ok (a + b)
  | .sub => .ok (a - b)

/-- What a token does to the operand after it, where it is a sign. -/
def Token.sign? : Token → Option (Value → Value)
  | .op .sub => some (fun x => -x)
  | .op .add => some (fun x => x)
  | .tilde => some (fun x => ~~~x)
  | _ => none

abbrev Symbols := Text → Option Word

namespace Expression

/-- What is left after reading something: fewer tokens than before. -/
abbrev Shorter (ts : List Token) := { rest : List Token // rest.length < ts.length }

abbrev NoLonger (ts : List Token) := { rest : List Token // rest.length ≤ ts.length }

def expect (k : Token) (wanted : String) (ts : List Token) :
    Except ExpressionError (Shorter ts) :=
  match ts with
  | [] => .error (.expectedToken wanted none)
  | t :: rest =>
    if t = k then .ok ⟨rest, Nat.lt_succ_self _⟩
    else .error (.expectedToken wanted (some t.text))

mutual

/-- An operand and the operators of at least the given tier that follow it. -/
def binary (symbols : Symbols) (tier : Nat) (ts : List Token) :
    Except ExpressionError (Value × Shorter ts) :=
  match unary symbols ts with
  | .error e => .error e
  | .ok (lhs, ⟨rest, h⟩) =>
    match operators symbols tier lhs rest with
    | .error e => .error e
    | .ok (value, ⟨rest', h'⟩) => .ok (value, ⟨rest', Nat.lt_of_le_of_lt h' h⟩)
  termination_by 4 * ts.length + 2
  decreasing_by all_goals omega

/-- Applies operators of at least the given tier to a left operand already read. -/
def operators (symbols : Symbols) (tier : Nat) (lhs : Value) (ts : List Token) :
    Except ExpressionError (Value × NoLonger ts) :=
  match ts with
  | .op o :: rest =>
    if o.tier < tier then .ok (lhs, ⟨.op o :: rest, Nat.le_refl _⟩)
    else
      match binary symbols (o.tier + 1) rest with
      | .error e => .error e
      | .ok (rhs, ⟨rest', h⟩) =>
        match o.apply lhs rhs with
        | .error e => .error e
        | .ok value =>
          match operators symbols tier value rest' with
          | .error e => .error e
          | .ok (result, ⟨rest'', h'⟩) =>
            .ok (result, ⟨rest'', by simp only [List.length_cons]; omega⟩)
  | ts => .ok (lhs, ⟨ts, Nat.le_refl _⟩)
  termination_by 4 * ts.length
  decreasing_by all_goals (simp only [List.length_cons]; omega)

def group (symbols : Symbols) (ts : List Token) :
    Except ExpressionError (Value × Shorter ts) :=
  match binary symbols 0 ts with
  | .error e => .error e
  | .ok (value, ⟨rest, h⟩) =>
    match expect .close ")" rest with
    | .error e => .error e
    | .ok ⟨rest', h'⟩ => .ok (value, ⟨rest', Nat.lt_trans h' h⟩)
  termination_by 4 * ts.length + 3
  decreasing_by all_goals omega

def relocated (symbols : Symbols) (ts : List Token) :
    Except ExpressionError (Value × Shorter ts) :=
  match ts with
  | [] => .error (.expectedOperand none)
  | .ident name :: rest =>
    match Relocation.ofName? name with
    | none => .error (.unknownRelocation name)
    | some relocation =>
      match expect .open "(" rest with
      | .error e => .error e
      | .ok ⟨rest', h⟩ =>
        match group symbols rest' with
        | .error e => .error e
        | .ok (value, ⟨rest'', h'⟩) =>
          .ok (relocation.apply value, ⟨rest'', by simp only [List.length_cons]; omega⟩)
  | found :: _ => .error (.expectedOperand (some found.text))
  termination_by 4 * ts.length
  decreasing_by all_goals (simp only [List.length_cons]; omega)

def unary (symbols : Symbols) (ts : List Token) :
    Except ExpressionError (Value × Shorter ts) :=
  match ts with
  | [] => .error (.expectedOperand none)
  | t :: rest =>
    match t.sign? with
    | some sign =>
      match unary symbols rest with
      | .error e => .error e
      | .ok (value, ⟨rest', h⟩) => .ok (sign value, ⟨rest', Nat.lt_succ_of_lt h⟩)
    | none =>
      match t with
      | .op .rem =>
        match relocated symbols rest with
        | .error e => .error e
        | .ok (value, ⟨rest', h⟩) => .ok (value, ⟨rest', Nat.lt_succ_of_lt h⟩)
      | .open =>
        match group symbols rest with
        | .error e => .error e
        | .ok (value, ⟨rest', h⟩) => .ok (value, ⟨rest', Nat.lt_succ_of_lt h⟩)
      | .num value => .ok (value, ⟨rest, Nat.lt_succ_self _⟩)
      | .ident name =>
        match symbols name with
        | some address => .ok (address.setWidth 64, ⟨rest, Nat.lt_succ_self _⟩)
        | none => .error (.unknownSymbol name)
      | _ => .error (.expectedOperand (some t.text))
  termination_by 4 * ts.length + 1
  decreasing_by all_goals (simp only [List.length_cons]; omega)

end

def ofTokens (symbols : Symbols) (ts : List Token) : Except ExpressionError Value :=
  if ts.isEmpty then .error .empty
  else do
    let (value, ⟨rest, _⟩) ← binary symbols 0 ts
    match rest with
    | [] => return value
    | .close :: _ => .error (.unexpectedChar ')')
    | t :: _ => .error (.expectedToken "end of expression" (some t.text))

def evaluate (symbols : Symbols) (t : Text) : Except ExpressionError Value := do
  ofTokens symbols (← Token.scan t)

def noSymbols : Symbols := fun _ => none

end Expression

end NiosBoard
