import NiosBoard.Text.Literal

/-! # Substitution of whole identifiers

One pass from left to right. A run of identifier characters that starts with a digit holds no name,
literals are copied, and what a name is replaced by is never looked at again.
-/

namespace NiosBoard.Text

/-- Replaces identifiers from a scan position on. `inRun` tells that the character before is an
identifier character, so that no name can start here except after a backslash. -/
def substituteFrom (f : Text → Option Text) : Scan → Bool → Text → Text
  | _, _, [] => []
  | s, inRun, c :: rest =>
    if !s.plain c then c :: substituteFrom f (s.next c) false rest
    else if c == '\\' then
      match _h : identifier? rest with
      | none => c :: substituteFrom f .outside false rest
      | some (name, after) =>
        (f name).getD (c :: name) ++ substituteFrom f .outside true after
    else if !inRun && isIdentStart c then
      (f (c :: rest.takeWhile isIdentChar)).getD (c :: rest.takeWhile isIdentChar) ++
        substituteFrom f .outside true (rest.dropWhile isIdentChar)
    else c :: substituteFrom f .outside (isIdentChar c) rest
  termination_by _ _ t => t.length
  decreasing_by
    all_goals simp only [List.length_cons]
    · omega
    · omega
    · have := length_lt_of_identifier? _h; omega
    · have := length_dropWhile_le isIdentChar rest; omega
    · omega

/-- Replaces every whole identifier outside literals for which `f` answers, all at once. A name
written `\name` is looked up as `name`, and loses its backslash when it is replaced. -/
def substitute (f : Text → Option Text) (t : Text) : Text := substituteFrom f .outside false t

end NiosBoard.Text
