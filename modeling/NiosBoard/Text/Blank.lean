/-! # Text fragments, blanks and lines

`isBlank` is the Unicode property `White_Space`, a closed set of 25 code points. Blanks that
separate the words of a macro header or surround a label are narrower: `isSpace` is a space or a tab.
-/

namespace NiosBoard

/-- A fragment of source text, character by character. -/
abbrev Text := List Char

namespace Text

def isBlank (c : Char) : Bool :=
  (0x09 ≤ c.toNat && c.toNat ≤ 0x0d) || c.toNat == 0x20 || c.toNat == 0x85 || c.toNat == 0xa0 ||
  c.toNat == 0x1680 || (0x2000 ≤ c.toNat && c.toNat ≤ 0x200a) || c.toNat == 0x2028 ||
  c.toNat == 0x2029 || c.toNat == 0x202f || c.toNat == 0x205f || c.toNat == 0x3000

def isSpace (c : Char) : Bool := c == ' ' || c == '\t'

theorem isBlank_of_isSpace {c : Char} (h : isSpace c = true) : isBlank c = true := by
  simp only [isSpace, Bool.or_eq_true, beq_iff_eq] at h
  rcases h with rfl | rfl <;> rfl

def trimStart (t : Text) : Text := t.dropWhile isBlank

def trimEnd (t : Text) : Text := (t.reverse.dropWhile isBlank).reverse

def trim (t : Text) : Text := trimEnd (trimStart t)

/-- ASCII letters in lower case, every other character kept. -/
def lowercase (t : Text) : Text := t.map Char.toLower

/-- Splits at newlines. A carriage return right before a newline belongs to the line end, and
a newline at the very end opens no further line. -/
def lines : Text → List Text
  | [] => []
  | '\n' :: rest => [] :: lines rest
  | '\r' :: '\n' :: rest => [] :: lines rest
  | c :: rest =>
    match lines rest with
    | [] => [[c]]
    | line :: more => (c :: line) :: more

theorem length_dropWhile_le {α : Type} (p : α → Bool) (l : List α) :
    (l.dropWhile p).length ≤ l.length :=
  (List.dropWhile_sublist p).length_le

end Text

end NiosBoard
