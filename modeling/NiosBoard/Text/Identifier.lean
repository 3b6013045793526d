import NiosBoard.Text.Blank

/-! # Identifiers

Names of labels, constants, macros and parameters: ASCII letters, digits, `_`, `.` and `$`,
not starting with a digit.
-/

namespace NiosBoard.Text

def isIdentStart (c : Char) : Bool := c.isAlpha || c == '_' || c == '.' || c == '$'

def isIdentChar (c : Char) : Bool := c.isAlphanum || c == '_' || c == '.' || c == '$'

theorem isIdentChar_of_isIdentStart {c : Char} (h : isIdentStart c = true) :
    isIdentChar c = true := by
  simp only [isIdentStart, isIdentChar, Char.isAlphanum, Bool.or_eq_true] at h ⊢
  rcases h with ((h | h) | h) | h <;> simp [h]

/-- The identifier at the front of the text, and what follows it. -/
def identifier? : Text → Option (Text × Text)
  | [] => none
  | c :: rest =>
    if isIdentStart c then some (c :: rest.takeWhile isIdentChar, rest.dropWhile isIdentChar)
    else none

def isIdentifier : Text → Bool
  | [] => false
  | c :: rest => isIdentStart c && rest.all isIdentChar

theorem append_of_identifier? {t name rest : Text} (h : identifier? t = some (name, rest)) :
    name ++ rest = t := by
  cases t with
  | nil => simp [identifier?] at h
  | cons c cs =>
    simp only [identifier?] at h
    split at h
    · obtain ⟨rfl, rfl⟩ := Prod.mk.inj (Option.some.inj h)
      simp
    · simp at h

theorem length_lt_of_identifier? {t name rest : Text} (h : identifier? t = some (name, rest)) :
    rest.length < t.length := by
  cases t with
  | nil => simp [identifier?] at h
  | cons c cs =>
    simp only [identifier?] at h
    split at h
    · obtain ⟨-, rfl⟩ := Prod.mk.inj (Option.some.inj h)
      exact Nat.lt_succ_of_le (length_dropWhile_le _ _)
    · simp at h

end NiosBoard.Text
