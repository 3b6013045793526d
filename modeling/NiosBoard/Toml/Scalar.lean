import NiosBoard.Text.Numeral

/-! # TOML scalars

Readers for the strings, numbers, booleans and dates of a TOML document. Each takes the text where
it starts and answers its value and what follows, or nothing when the text is malformed.
-/

namespace NiosBoard.Toml

/-- Values. Of floats and dates only the form matters here. -/
inductive Value where
  | string (s : Text)
  | integer (n : Int)
  | float
  | boolean (b : Bool)
  | datetime
  | array (items : List Value)
  | table (entries : List (Text × Value))
  deriving Repr

def isControl (c : Char) : Bool := (c.toNat < 0x20 && c != '\t') || c.toNat == 0x7f

def skipSpaces (t : Text) : Text := t.dropWhile Text.isSpace

def newline? : Text → Option Text
  | '\n' :: rest => some rest
  | '\r' :: '\n' :: rest => some rest
  | _ => none

def skipComment (t : Text) : Text :=
  match t with
  | '#' :: rest => rest.dropWhile (!isControl ·)
  | t => t

/-- The end of a line: spaces, a comment perhaps, and a newline or the end of the text. -/
def lineEnd? (t : Text) : Option Text :=
  match skipComment (skipSpaces t) with
  | [] => some []
  | rest => newline? rest

/-! ### Strings -/

def codePoint? (width : Nat) (t : Text) : Option (Char × Text) := do
  let digits := t.take width
  if digits.length ≠ width then failure
  let n ← Text.readNat? 16 digits
  if n.isValidChar then some (Char.ofNat n, t.drop width) else none

def escape? : Text → Option (Char × Text)
  | 'b' :: rest => some ('\x08', rest)
  | 't' :: rest => some ('\t', rest)
  | 'n' :: rest => some ('\n', rest)
  | 'f' :: rest => some ('\x0c', rest)
  | 'r' :: rest => some ('\r', rest)
  | '"' :: rest => some ('"', rest)
  | '\\' :: rest => some ('\\', rest)
  | 'u' :: rest => codePoint? 4 rest
  | 'U' :: rest => codePoint? 8 rest
  | _ => none

def basicRest? : Nat → Text → Option (Text × Text)
  | 0, _ => none
  | _ + 1, [] => none
  | _ + 1, '"' :: rest => some ([], rest)
  | fuel + 1, '\\' :: rest => do
    let (c, rest) ← escape? rest
    let (body, rest) ← basicRest? fuel rest
    some (c :: body, rest)
  | fuel + 1, c :: rest =>
    if isControl c then none
    else do
      let (body, rest) ← basicRest? fuel rest
      some (c :: body, rest)

def literalRest? (t : Text) : Option (Text × Text) :=
  match t.dropWhile (fun c => c != '\'' && !isControl c) with
  | '\'' :: rest => some (t.takeWhile (fun c => c != '\'' && !isControl c), rest)
  | _ => none

/-- After a backslash at the end of a line: skips spaces, tabs and newlines. -/
def skipLineFolding : Text → Text
  | [] => []
  | '\r' :: '\n' :: rest => skipLineFolding rest
  | c :: rest => if Text.isSpace c || c == '\n' then skipLineFolding rest else c :: rest

/-- A string over several lines after its opening quotes, which are `quote`. Up to two quotes may
stand right before the closing ones. -/
def multilineRest? (quote : Char) : Nat → Text → Option (Text × Text)
  | 0, _ => none
  | _ + 1, [] => none
  | fuel + 1, c :: rest =>
    if c == quote then
      let more := (rest.takeWhile (· == quote)).length
      if 2 ≤ more then
        some (List.replicate (min (more - 2) 2) quote, rest.drop (min more 4))
      else do
        let (body, rest) ← multilineRest? quote fuel rest
        some (quote :: body, rest)
    else if c == '\\' && quote == '"' then
      match newline? (skipSpaces rest) with
      | some after => multilineRest? quote fuel (skipLineFolding after)
      | none => do
        let (e, rest) ← escape? rest
        let (body, rest) ← multilineRest? quote fuel rest
        some (e :: body, rest)
    else
      match newline? (c :: rest) with
      | some rest => do
        let (body, rest) ← multilineRest? quote fuel rest
        some ('\n' :: body, rest)
      | none =>
        if isControl c then none
        else do
          let (body, rest) ← multilineRest? quote fuel rest
          some (c :: body, rest)

def singleLine? (t : Text) : Option (Text × Text) :=
  match t with
  | '"' :: rest => basicRest? (rest.length + 1) rest
  | '\'' :: rest => literalRest? rest
  | _ => none

/-- Any string. A newline right after the opening of a long one is not part of it. -/
def string? (t : Text) : Option (Text × Text) :=
  let long (quote : Char) (rest : Text) : Option (Text × Text) :=
    let body := (newline? rest).getD rest
    multilineRest? quote (body.length + 1) body
  match t with
  | '"' :: '"' :: '"' :: rest => long '"' rest
  | '\'' :: '\'' :: '\'' :: rest => long '\'' rest
  | t => singleLine? t

/-! ### Numbers -/

def digitRun? (base : Nat) : Text → Option Text
  | [] => none
  | [c] => if (Text.digitValue? base c).isSome then some [c] else none
  | c :: '_' :: rest =>
    if (Text.digitValue? base c).isSome then (digitRun? base rest).map (c :: ·) else none
  | c :: rest =>
    if (Text.digitValue? base c).isSome then (digitRun? base rest).map (c :: ·) else none

/-- A decimal integer part: no leading zero before other digits. -/
def decimalPart? (t : Text) : Option Nat :=
  match digitRun? 10 t with
  | some ('0' :: _ :: _) => none
  | some ds => Text.readNat? 10 ds
  | none => none

def splitSign : Text → Bool × Text
  | '-' :: rest => (true, rest)
  | '+' :: rest => (false, rest)
  | t => (false, t)

/-- Integers are those a signed 64-bit word holds. -/
def inRange (n : Int) : Option Value :=
  if (BitVec.ofInt 64 n).toInt = n then some (.integer n) else none

def integer? (t : Text) : Option Value :=
  match t with
  | '0' :: 'x' :: rest => do inRange (← Text.readNat? 16 (← digitRun? 16 rest))
  | '0' :: 'o' :: rest => do inRange (← Text.readNat? 8 (← digitRun? 8 rest))
  | '0' :: 'b' :: rest => do inRange (← Text.readNat? 2 (← digitRun? 2 rest))
  | t => do
    let (negative, body) := splitSign t
    let n ← decimalPart? body
    inRange (if negative then -(n : Int) else n)

def isExponentMark (c : Char) : Bool := c == 'e' || c == 'E'

def exponent? : Text → Option Int
  | [] => none
  | c :: rest =>
    if isExponentMark c then
      let (negative, digits) := splitSign rest
      ((digitRun? 10 digits).bind (Text.readNat? 10)).map fun n => if negative then -(n : Int) else n
    else none

/-- The digits after the point and the exponent, where a whole part ends. One of the two is there. -/
def fraction? (t : Text) : Option (Text × Int) :=
  match t with
  | '.' :: rest => do
    let digits ← digitRun? 10 (rest.takeWhile (!isExponentMark ·))
    match rest.dropWhile (!isExponentMark ·) with
    | [] => some (digits, 0)
    | rest => (exponent? rest).map fun e => (digits, e)
  | t => (exponent? t).map fun e => ([], e)

/-- Whether `digits` with the given decimal exponent is nearer to the 1024th power of two than to
any finite double, or as near. -/
def overflows (digits : Nat) (exponent : Int) : Bool :=
  let size := (Text.natDecimal digits).length + exponent
  let midpoint := (1 <<< 1024) - (1 <<< 970)
  if digits = 0 || size < 300 then false
  else if 310 < size then true
  else if 0 ≤ exponent then midpoint ≤ digits * Nat.pow 10 exponent.toNat
  else midpoint * Nat.pow 10 exponent.natAbs ≤ digits

/-- A float. One too large for a double is refused, but only without a minus sign. -/
def float? (t : Text) : Option Value :=
  let (negative, body) := splitSign t
  if body = "inf".toList ∨ body = "nan".toList then some .float
  else do
    let isWhole (c : Char) : Bool := c != '.' && !isExponentMark c
    let whole ← decimalPart? (body.takeWhile isWhole)
    let (digits, exponent) ← fraction? (body.dropWhile isWhole)
    let all ← Text.readDigits? 10 whole digits
    if !negative && overflows all (exponent - digits.length) then none else some .float

def isNumberChar (c : Char) : Bool := c.isAlphanum || c == '_' || c == '+' || c == '-' || c == '.'

def number? (t : Text) : Option (Value × Text) :=
  let word := t.takeWhile isNumberChar
  ((integer? word).or (float? word)).map fun v => (v, t.dropWhile isNumberChar)

/-! ### Dates and times -/

def fixed? (width least most : Nat) (t : Text) : Option (Nat × Text) := do
  let ds := t.take width
  if ds.length ≠ width then failure
  let n ← Text.readNat? 10 ds
  if least ≤ n ∧ n ≤ most then some (n, t.drop width) else none

def exactly? (c : Char) : Text → Option Text
  | d :: rest => if d = c then some rest else none
  | [] => none

/-- A date. Every month has 31 days. -/
def date? (t : Text) : Option Text := do
  let (_, t) ← fixed? 4 0 9999 t
  let t ← exactly? '-' t
  let (_, t) ← fixed? 2 1 12 t
  let t ← exactly? '-' t
  let (_, t) ← fixed? 2 1 31 t
  some t

def time? (t : Text) : Option Text := do
  let (_, t) ← fixed? 2 0 23 t
  let t ← exactly? ':' t
  let (_, t) ← fixed? 2 0 59 t
  let t ← exactly? ':' t
  let (_, t) ← fixed? 2 0 60 t
  match t with
  | '.' :: d :: rest => if d.isDigit then some (rest.dropWhile Char.isDigit) else none
  | '.' :: [] => none
  | t => some t

def offset? (t : Text) : Option Text :=
  match t with
  | [] => some t
  | c :: rest =>
    if c == 'Z' || c == 'z' then some rest
    else if c == '+' || c == '-' then do
      let (_, rest) ← fixed? 2 0 23 rest
      let rest ← exactly? ':' rest
      let (_, rest) ← fixed? 2 0 59 rest
      some rest
    else some t

/-- A date, a time, or both with an offset perhaps. A blank joins date and time only if a time
follows. -/
def datetime? (t : Text) : Option (Value × Text) :=
  match date? t with
  | none => (time? t).map fun rest => (.datetime, rest)
  | some rest =>
    match rest with
    | c :: afterMark =>
      if c == 'T' || c == 't' || c == ' ' then
        match time? afterMark with
        | some rest => (offset? rest).map fun rest => (.datetime, rest)
        | none => some (.datetime, rest)
      else some (.datetime, rest)
    | [] => some (.datetime, [])

def startsDate (t : Text) : Bool :=
  (t.take 4).length == 4 && (t.take 4).all Char.isDigit && t[4]? == some '-' ||
    (t.take 2).length == 2 && (t.take 2).all Char.isDigit && t[2]? == some ':'

def scalar? (t : Text) : Option (Value × Text) :=
  match t with
  | [] => none
  | 't' :: 'r' :: 'u' :: 'e' :: rest => some (.boolean true, rest)
  | 'f' :: 'a' :: 'l' :: 's' :: 'e' :: rest => some (.boolean false, rest)
  | c :: _ =>
    if c == '"' || c == '\'' then (string? t).map fun (s, rest) => (.string s, rest)
    else if startsDate t then datetime? t
    else number? t

end NiosBoard.Toml
