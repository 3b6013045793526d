import NiosBoard.Text.Blank

/-! # Double-quoted strings

A backslash escapes the character after it; a backslash before any character but the seven of
`unescape?` makes the text no string at all.
-/

namespace NiosBoard.Text

def unescape? (c : Char) : Option Char :=
  match c with
  | '\\' => some '\\'
  | '"' => some '"'
  | '\'' => some '\''
  | 'n' => some '\n'
  | 't' => some '\t'
  | 'r' => some '\r'
  | '0' => some '\x00'
  | _ => none

def quotedRest? : Text → Option (Text × Text)
  | [] => none
  | '"' :: rest => some ([], rest)
  | '\\' :: e :: rest => do
    let c ← unescape? e
    let (body, after) ← quotedRest? rest
    some (c :: body, after)
  | ['\\'] => none
  | c :: rest => do
    let (body, after) ← quotedRest? rest
    some (c :: body, after)

/-- A double-quoted string at the front of the text: its contents and what follows it. -/
def quoted? : Text → Option (Text × Text)
  | '"' :: rest => quotedRest? rest
  | _ => none

end NiosBoard.Text
