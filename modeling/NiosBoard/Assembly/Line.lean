import NiosBoard.Text.Literal

/-! # The parts of a source line

Labels, directive names and mnemonics are read off the front of a line; each reader returns what it
read and what follows. Names end at any blank, but only spaces and tabs separate the words of a
macro header and surround the name of a label.
-/

namespace NiosBoard.Line

open Text

def skipSpaces (t : Text) : Text := t.dropWhile isSpace

/-- `name:`, with spaces around the name. -/
def label? (t : Text) : Option (Text × Text) :=
  match identifier? (skipSpaces t) with
  | none => none
  | some (name, rest) =>
    match skipSpaces rest with
    | ':' :: rest => some (name, rest)
    | _ => none

theorem length_skipSpaces_le (t : Text) : (skipSpaces t).length ≤ t.length :=
  length_dropWhile_le _ _

theorem length_lt_of_label? {t name rest : Text} (h : label? t = some (name, rest)) :
    rest.length < t.length := by
  unfold label? at h
  have hs := length_skipSpaces_le t
  split at h
  · simp at h
  · next n r hi =>
    have hlt := length_lt_of_identifier? hi
    have hr := length_skipSpaces_le r
    split at h
    · next r' hc =>
      obtain ⟨-, rfl⟩ := Prod.mk.inj (Option.some.inj h)
      rw [hc, List.length_cons] at hr
      omega
    · simp at h

def labels (t : Text) : List Text × Text :=
  match _h : label? t with
  | none => ([], t)
  | some (name, rest) =>
    match labels rest with
    | (names, after) => (name :: names, after)
  termination_by t.length
  decreasing_by all_goals exact length_lt_of_label? _h

/-- The characters before the first blank, at least one. -/
def mnemonic? (t : Text) : Option (Text × Text) :=
  match t.takeWhile (!isBlank ·) with
  | [] => none
  | word => some (word, t.dropWhile (!isBlank ·))

def directive? : Text → Option (Text × Text)
  | '.' :: rest => mnemonic? rest
  | _ => none

/-- What follows a separator: a comma with spaces around it, or spaces alone. -/
def separator? (t : Text) : Option Text :=
  match skipSpaces t with
  | ',' :: rest => some (skipSpaces rest)
  | rest => if rest.length < t.length then some rest else none

theorem length_le_of_separator? {t rest : Text} (h : separator? t = some rest) :
    rest.length ≤ t.length := by
  unfold separator? at h
  have hs := length_skipSpaces_le t
  split at h
  · next r hr =>
    obtain rfl := Option.some.inj h
    have := length_skipSpaces_le r
    rw [hr, List.length_cons] at hs
    omega
  · split at h
    · obtain rfl := Option.some.inj h
      omega
    · simp at h

/-- Further parameters, each after a separator. A separator that no identifier follows is not
taken. -/
def moreParameters (t : Text) : List Text × Text :=
  match _hs : separator? t with
  | none => ([], t)
  | some rest =>
    match _hi : identifier? rest with
    | none => ([], t)
    | some (name, rest') =>
      match moreParameters rest' with
      | (names, after) => (name :: names, after)
  termination_by t.length
  decreasing_by
    all_goals
    have := length_le_of_separator? _hs
    have := length_lt_of_identifier? _hi
    omega

def parameters (t : Text) : List Text × Text :=
  match identifier? t with
  | none => ([], t)
  | some (name, rest) =>
    match moreParameters rest with
    | (names, after) => (name :: names, after)

structure MacroHeader where
  name : Text
  params : List Text
  deriving DecidableEq, Repr

/-- `.macro NAME p1, p2` or `.macro NAME p1 p2`, the keyword in lower case. -/
def macroHeader? (t : Text) : Option (MacroHeader × Text) :=
  match t with
  | '.' :: 'm' :: 'a' :: 'c' :: 'r' :: 'o' :: c :: rest =>
    if isSpace c then
      match identifier? (skipSpaces rest) with
      | none => none
      | some (name, rest) =>
        let (params, after) := parameters ((separator? rest).getD rest)
        some (⟨name, params⟩, skipSpaces after)
    else none
  | _ => none

def closesMacro (t : Text) : Bool :=
  trim t == ".endm".toList || trim t == ".end_macro".toList

end NiosBoard.Line
