import NiosBoard.Text.Literal

/-! # Operand lists

Operands are separated by the commas outside literals and parentheses. A memory operand is an
offset with a parenthesised base.
-/

namespace NiosBoard.Text

/-- How far parentheses stay open after `c`. Only plain characters count. The depth has no bound
here; a signed 32-bit counter is the same up to `2 ^ 31` parentheses that stay open. -/
def depthAfter (depth : Int) (c : Char) : Int :=
  if c == '(' then depth + 1 else if c == ')' then depth - 1 else depth

def piecesFrom : Scan → Int → Text → List Text
  | _, _, [] => [[]]
  | s, depth, c :: rest =>
    if s.plain c && c == ',' && depth == 0 then [] :: piecesFrom .outside depth rest
    else
      match piecesFrom (s.next c) (if s.plain c then depthAfter depth c else depth) rest with
      | [] => [[c]]
      | piece :: more => (c :: piece) :: more

theorem piecesFrom_ne_nil (s : Scan) (depth : Int) (t : Text) : piecesFrom s depth t ≠ [] := by
  cases t with
  | nil => simp [piecesFrom]
  | cons c rest =>
    unfold piecesFrom
    split
    · simp
    · split <;> simp

/-- The operands of an instruction, directive or macro call, each trimmed. A blank text has
none; otherwise empty pieces count. -/
def splitOperands (t : Text) : List Text :=
  if trim t = [] then [] else (piecesFrom .outside 0 t).map trim

/-- Splits `offset(base)` at the last opening parenthesis; both parts are trimmed and the
offset may be empty. -/
def memoryOperand? (t : Text) : Option (Text × Text) :=
  match (trim t).reverse with
  | ')' :: inner =>
    match inner.dropWhile (· != '(') with
    | [] => none
    | _ :: offset => some (trim offset.reverse, trim (inner.takeWhile (· != '(')).reverse)
  | _ => none

end NiosBoard.Text
