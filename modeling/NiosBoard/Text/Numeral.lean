import NiosBoard.Text.Blank

/-! # Numerals

Positional notation in bases up to 36: reading digits of either case, writing them in lower case,
and the fixed-width hexadecimal of addresses and machine words.
-/

namespace NiosBoard.Text

/-- The value of a digit of the base, letters in either case. -/
def digitValue? (base : Nat) (c : Char) : Option Nat :=
  let value :=
    if c.isDigit then c.toNat - '0'.toNat
    else if c.isLower then c.toNat - 'a'.toNat + 10
    else if c.isUpper then c.toNat - 'A'.toNat + 10
    else base
  if value < base then some value else none

/-- Reads the digits after a value already read. -/
def readDigits? (base : Nat) : Nat → Text → Option Nat
  | n, [] => some n
  | n, c :: rest => do readDigits? base (n * base + (← digitValue? base c)) rest

/-- Reads a numeral of at least one digit and nothing else. -/
def readNat? (base : Nat) : Text → Option Nat
  | [] => none
  | t => readDigits? base 0 t

def digitChar (n : Nat) : Char :=
  if n < 10 then Char.ofNat ('0'.toNat + n) else Char.ofNat ('a'.toNat + (n - 10))

def digits (base n : Nat) : Text :=
  if _h : n < base ∨ base < 2 then [digitChar n]
  else digits base (n / base) ++ [digitChar (n % base)]
  termination_by n
  decreasing_by exact Nat.div_lt_self (by omega) (by omega)

def natDecimal (n : Nat) : Text := digits 10 n

def intDecimal (n : Int) : Text :=
  if n < 0 then '-' :: digits 10 n.natAbs else digits 10 n.natAbs

def hexadecimal (n : Nat) : Text := '0' :: 'x' :: digits 16 n

def hexPadded (width n : Nat) : Text :=
  List.replicate (width - (digits 16 n).length) '0' ++ digits 16 n

end NiosBoard.Text
