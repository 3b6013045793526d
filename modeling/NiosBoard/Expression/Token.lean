import NiosBoard.Text.Quoted
import NiosBoard.Text.Identifier
import NiosBoard.Text.Numeral
import NiosBoard.Text.Style

/-! # Tokens of operand expressions

Numerals are decimal below `2^63`, or hexadecimal or binary below `2^64`; the latter may spell out
all bits of a negative value. A numeral extends over every letter and digit that follows, so a bad
digit makes the whole word an invalid literal.
-/

namespace NiosBoard

/-- The value of an expression: 64 bits, wrapping. -/
abbrev Value := BitVec 64

inductive ExpressionError where
  | empty
  | unknownSymbol (name : Text)
  | invalidLiteral (text : Text)
  | unexpectedChar (c : Char)
  /-- A value was expected; `none` is the end of the line. -/
  | expectedOperand (found : Option Text)
  | expectedToken (wanted : String) (found : Option Text)
  | unknownRelocation (name : Text)
  | divisionByZero
  deriving DecidableEq, Repr

def foundText : Option Text → String
  | some t => String.ofList t
  | none => "<end of line>"

def ExpressionError.message : ExpressionError → String
  | .empty => "Empty expression"
  | .unknownSymbol name => "Unknown symbol '" ++ Style.yellow (String.ofList name) ++ "'"
  | .invalidLiteral t => "Invalid number literal '" ++ Style.yellow (String.ofList t) ++ "'"
  | .unexpectedChar c =>
    "Unexpected character '" ++ Style.yellow (String.singleton c) ++ "' in expression"
  | .expectedOperand found =>
    "Expected a value, but found '" ++ Style.yellow (foundText found) ++ "'"
  | .expectedToken wanted found =>
    "Expected '" ++ Style.blue wanted ++ "', but found '" ++ Style.yellow (foundText found) ++ "'"
  | .unknownRelocation name =>
    "Unknown relocation '" ++ Style.yellow "%" ++ Style.yellow (String.ofList name) ++ "'"
  | .divisionByZero => "Division by zero in expression"

inductive BinaryOp where
  | shl
  | shr
  | ushr
  | and
  | or
  | xor
  | mul
  | div
  | rem
  | add
  | sub
  deriving DecidableEq, Repr

namespace BinaryOp

def symbol : BinaryOp → String
  | .shl => "<<"
  | .shr => ">>"
  | .ushr => ">>>"
  | .and => "&"
  | .or => "|"
  | .xor => "^"
  | .mul => "*"
  | .div => "/"
  | .rem => "%"
  | .add => "+"
  | .sub => "-"

/-- The tier of the operator; a higher one binds tighter. -/
def tier : BinaryOp → Nat
  | .shl => 5
  | .shr => 5
  | .ushr => 5
  | .and => 4
  | .or => 3
  | .xor => 3
  | .mul => 2
  | .div => 2
  | .rem => 2
  | .add => 1
  | .sub => 1

end BinaryOp

inductive Token where
  | num (value : Value)
  | ident (name : Text)
  | open
  | close
  | op (o : BinaryOp)
  | tilde
  deriving DecidableEq, Repr

/-- The token as messages show it: numbers in signed decimal. -/
def Token.text : Token → Text
  | .num v => Text.intDecimal v.toInt
  | .ident name => name
  | .open => ['(']
  | .close => [')']
  | .op o => o.symbol.toList
  | .tilde => ['~']

namespace Token

/-- The value of a numeral: an ASCII digit and the letters and digits after it. -/
def literal? (t : Text) : Option Value :=
  match Text.lowercase t with
  | '0' :: 'x' :: rest => bounded (1 <<< 64) (Text.readNat? 16 rest)
  | '0' :: 'b' :: rest => bounded (1 <<< 64) (Text.readNat? 2 rest)
  | rest => bounded (1 <<< 63) (Text.readNat? 10 rest)
where
  bounded (limit : Nat) (n : Option Nat) : Option Value :=
    n.bind fun n => if n < limit then some (BitVec.ofNat 64 n) else none

/-- The operator at the front of a text, the longest that fits. -/
def operator? : Text → Option (Token × Text)
  | '>' :: '>' :: '>' :: rest => some (.op .ushr, rest)
  | '<' :: '<' :: rest => some (.op .shl, rest)
  | '>' :: '>' :: rest => some (.op .shr, rest)
  | '&' :: rest => some (.op .and, rest)
  | '|' :: rest => some (.op .or, rest)
  | '^' :: rest => some (.op .xor, rest)
  | '*' :: rest => some (.op .mul, rest)
  | '/' :: rest => some (.op .div, rest)
  | '%' :: rest => some (.op .rem, rest)
  | '+' :: rest => some (.op .add, rest)
  | '-' :: rest => some (.op .sub, rest)
  | '~' :: rest => some (.tilde, rest)
  | _ => none

def charRest? : Text → Option (Value × Text)
  | '\\' :: e :: '\'' :: rest => (Text.unescape? e).map fun c => (BitVec.ofNat 64 c.toNat, rest)
  | '\\' :: _ => none
  | '\'' :: _ => none
  | c :: '\'' :: rest => some (BitVec.ofNat 64 c.toNat, rest)
  | _ => none

/-- A malformed character literal as messages show it: up to the next quote, if there is one. -/
def charText (afterQuote : Text) : Text :=
  '\'' :: (afterQuote.takeWhile (· != '\'') ++ (afterQuote.dropWhile (· != '\'')).take 1)

theorem length_lt_of_charRest? {t : Text} {v : Value} {rest : Text}
    (h : charRest? t = some (v, rest)) : rest.length < t.length := by
  unfold charRest? at h
  split at h
  · obtain ⟨c, -, hc⟩ := Option.map_eq_some_iff.mp h
    obtain ⟨-, rfl⟩ := Prod.mk.inj hc
    simp only [List.length_cons]
    omega
  · simp at h
  · simp at h
  · obtain ⟨-, rfl⟩ := Prod.mk.inj (Option.some.inj h)
    simp only [List.length_cons]
    omega
  · simp at h

theorem length_lt_of_operator? {t : Text} {k : Token} {rest : Text}
    (h : operator? t = some (k, rest)) : rest.length < t.length := by
  unfold operator? at h
  split at h <;> first
    | (obtain ⟨-, rfl⟩ := Prod.mk.inj (Option.some.inj h); simp only [List.length_cons]; omega)
    | simp at h

def scan : Text → Except ExpressionError (List Token)
  | [] => .ok []
  | c :: rest =>
    if Text.isBlank c then scan rest
    else if c.isDigit then
      match literal? (c :: rest.takeWhile Char.isAlphanum) with
      | none => .error (.invalidLiteral (c :: rest.takeWhile Char.isAlphanum))
      | some v => (.num v :: ·) <$> scan (rest.dropWhile Char.isAlphanum)
    else if Text.isIdentStart c then
      (.ident (c :: rest.takeWhile Text.isIdentChar) :: ·) <$>
        scan (rest.dropWhile Text.isIdentChar)
    else if c == '\'' then
      match _h : charRest? rest with
      | none => .error (.invalidLiteral (charText rest))
      | some (v, after) => (.num v :: ·) <$> scan after
    else if c == '(' then (.open :: ·) <$> scan rest
    else if c == ')' then (.close :: ·) <$> scan rest
    else
      match _h : operator? (c :: rest) with
      | none => .error (.unexpectedChar c)
      | some (k, after) => (k :: ·) <$> scan after
  termination_by t => t.length
  decreasing_by
    all_goals simp only [List.length_cons]
    · omega
    · have := Text.length_dropWhile_le Char.isAlphanum rest; omega
    · have := Text.length_dropWhile_le Text.isIdentChar rest; omega
    · have := length_lt_of_charRest? _h; omega
    · omega
    · omega
    · have := length_lt_of_operator? _h; simpa using this

end Token

end NiosBoard
