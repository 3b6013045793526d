import NiosBoard.Text.GraphemeExtend
import NiosBoard.Text.Numeral
import NiosBoard.Text.Unshown

/-! # Quoting for messages

A text between double quotes in which every character is visible and stands by itself: characters
that are not shown, and those that are drawn onto the one before them, are written by their code
point.
-/

namespace NiosBoard.Text

/-- The halfwidth voiced and semi-voiced sound marks. They extend a grapheme, but are letters with a
place of their own. -/
def isHalfwidthSoundMark (c : Char) : Bool := c == '\uff9e' || c == '\uff9f'

def isHidden (c : Char) : Bool := isUnshown c || (isGraphemeExtend c && !isHalfwidthSoundMark c)

def escapeChar (c : Char) : Text :=
  match c with
  | '"' => ['\\', '"']
  | '\\' => ['\\', '\\']
  | '\n' => ['\\', 'n']
  | '\r' => ['\\', 'r']
  | '\t' => ['\\', 't']
  | '\x00' => ['\\', '0']
  | c => if isHidden c then ['\\', 'u', '\x7b'] ++ digits 16 c.toNat ++ ['\x7d'] else [c]

def escaped (t : Text) : Text := '"' :: (t.flatMap escapeChar ++ ['"'])

end NiosBoard.Text
