import NiosBoard.Assembly.Error
import NiosBoard.Expression.Evaluate
import NiosBoard.Machine.Board
import NiosBoard.Text.Operands

/-! # Data items

What one data directive puts into memory. Values stay text until every label has its address;
the size of an item depends on nothing but the address where it is placed.
-/

namespace NiosBoard

inductive DataKind where
  | values (width : Width)
  | strings (terminated : Bool)
  | skip
  | align
  deriving DecidableEq, Repr

def DataKind.ofName? (name : Text) : Option DataKind :=
  [("byte", DataKind.values .byte), ("hword", .values .half), ("short", .values .half),
    ("half", .values .half), ("word", .values .word), ("ascii", .strings false),
    ("asciz", .strings true), ("string", .strings true), ("skip", .skip), ("space", .skip),
    ("align", .align)].findSome? fun (n, kind) => if n.toList = name then some kind else none

inductive DataItem where
  /-- Expressions, evaluated when all labels are known. -/
  | values (width : Width) (exprs : List Text)
  | bytes (contents : List Byte)
  | skip (length : Nat) (fill : Byte)
  /-- Zeros up to a multiple of `1 <<< exponent`. -/
  | align (exponent : Nat)
  deriving DecidableEq, Repr

namespace DataItem

def utf8 (t : Text) : List Byte :=
  t.flatMap fun c => (String.utf8EncodeChar c).map UInt8.toBitVec

/-- The value of an expression that must not depend on labels. -/
def constant (t : Text) : Except Cause Value :=
  match Expression.evaluate Expression.noSymbols t with
  | .ok v => .ok v
  | .error (.unknownSymbol _) => .error (.statement (.invalidSize t))
  | .error e => .error (.expression e)

def ofValues (width : Width) (pieces : List Text) : Except Cause DataItem :=
  if pieces = [] || pieces.any List.isEmpty then .error (.expression .empty) else .ok (.values width pieces)

def stringBytes (terminated : Bool) (piece : Text) : Except Cause (List Byte) :=
  match Text.quoted? piece with
  | some (contents, rest) =>
    if Text.trim rest = [] then .ok (utf8 contents ++ if terminated then [0] else [])
    else .error (.statement (.expectedString (some piece)))
  | none => .error (.statement (.expectedString (some piece)))

def ofStrings (terminated : Bool) (pieces : List Text) : Except Cause DataItem :=
  if pieces = [] then .error (.statement (.expectedString none))
  else do return .bytes (← pieces.mapM (stringBytes terminated)).flatten

/-- The item of a length operand; lengths go up to the size of program RAM. -/
def ofLength (lengthText : Text) (fill : Byte) : Except Cause DataItem := do
  let length ← constant lengthText
  if 0 ≤ length.toInt ∧ length.toInt ≤ Board.ramSize then return .skip length.toNat fill
  else throw (.statement (.invalidSize lengthText))

def ofSkip : List Text → Except Cause DataItem
  | [length] => ofLength length 0
  | [length, fill] => do
    let fill ← constant fill
    ofLength length (fill.setWidth 8)
  | pieces => .error (.statement (.operandCount ".skip" 1 pieces.length))

/-- The exponent of the largest alignment, the size of program RAM. -/
def maxExponent : Nat := Board.ramSize.log2

def ofAlign : List Text → Except Cause DataItem
  | [exponentText] => do
    let exponent ← constant exponentText
    if 0 ≤ exponent.toInt ∧ exponent.toInt ≤ maxExponent then
      return .align exponent.toNat
    else throw (.statement (.invalidSize exponentText))
  | pieces => .error (.statement (.operandCount ".align" 1 pieces.length))

def ofOperands (kind : DataKind) (operands : Text) : Except Cause DataItem :=
  match kind with
  | .values width => ofValues width (Text.splitOperands operands)
  | .strings terminated => ofStrings terminated (Text.splitOperands operands)
  | .skip => ofSkip (Text.splitOperands operands)
  | .align => ofAlign (Text.splitOperands operands)

/-- How many bytes bring `address` to a multiple of `1 <<< exponent`. -/
def padding (exponent : Nat) (address : Word) : Word :=
  let multiple := (1 : Word) <<< exponent
  (multiple - address % multiple) % multiple

/-- Bytes this item takes when it is placed at `address`. A size is a 32-bit number, of which a
longer item has the low bits only. -/
def size (item : DataItem) (address : Word) : Word :=
  match item with
  | .values width exprs => BitVec.ofNat 32 width.bytes * BitVec.ofNat 32 exprs.length
  | .bytes contents => BitVec.ofNat 32 contents.length
  | .skip length _ => BitVec.ofNat 32 length
  | .align exponent => padding exponent address

/-- The bytes of this item when it is placed at `address`. Values too wide are truncated. -/
def emit (item : DataItem) (address : Word) (symbols : Symbols) :
    Except ExpressionError (List Byte) :=
  match item with
  | .values width exprs => do
    let values ← exprs.mapM (Expression.evaluate symbols)
    return values.flatMap (littleEndian width.bytes)
  | .bytes contents => .ok contents
  | .skip length fill => .ok (List.replicate length fill)
  | .align exponent => .ok (List.replicate (padding exponent address).toNat 0)

end DataItem

end NiosBoard
