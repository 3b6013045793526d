import NiosBoard.Text.Identifier

/-! # Literals inside a line

A string or character literal runs from a quote to the next unescaped quote of the same kind, or
to the end of the line when there is none. What a line means outside its literals (comments,
commas, names to substitute) never depends on what is inside them.
-/

namespace NiosBoard.Text

inductive Scan where
  | outside
  | inside (quote : Char)
  /-- Inside a literal, right after a backslash. -/
  | escaped (quote : Char)
  deriving DecidableEq, Repr

def isQuote (c : Char) : Bool := c == '"' || c == '\''

namespace Scan

def next : Scan → Char → Scan
  | .outside, c => if isQuote c then .inside c else .outside
  | .inside q, c => if c == '\\' then .escaped q else if c == q then .outside else .inside q
  | .escaped q, _ => .inside q

/-- Whether the character met in this position is outside every literal (a quote is not). -/
def plain : Scan → Char → Bool
  | .outside, c => !isQuote c
  | _, _ => false

def after (s : Scan) (t : Text) : Scan := t.foldl next s

@[simp] theorem after_nil (s : Scan) : s.after [] = s := rfl

@[simp] theorem after_cons (s : Scan) (c : Char) (t : Text) :
    s.after (c :: t) = (s.next c).after t := rfl

theorem after_append (s : Scan) (t u : Text) : s.after (t ++ u) = (s.after t).after u :=
  List.foldl_append

end Scan

def opensComment (c : Char) (rest : Text) : Bool :=
  c == '#' || (c == '/' && rest.head? == some '/')

def stripCommentFrom : Scan → Text → Text
  | _, [] => []
  | s, c :: rest =>
    if s.plain c && opensComment c rest then []
    else c :: stripCommentFrom (s.next c) rest

/-- Cuts the line at the first `#` or `//` outside its literals. -/
def stripComment (t : Text) : Text := stripCommentFrom .outside t

end NiosBoard.Text
