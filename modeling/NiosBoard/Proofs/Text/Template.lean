import Mathlib.Data.List.Basic
import NiosBoard.Isa.Instruction
import NiosBoard.Text.Substitution

/-! # Substitution as a template

Where the names of a text stand does not depend on what they are replaced by, nor on the operands
that are put there. So a text with parameters is a template: characters, and places for operands,
which are filled all at once.
-/

namespace NiosBoard.Text

/-- A stretch of a text as substitution reads it: a character that is copied, or a name and how it
is written. -/
inductive Segment where
  | copied (c : Char)
  | ident (name written : Text)
  deriving DecidableEq, Repr

def Segment.fill (f : Text → Option Text) : Segment → Text
  | .copied c => [c]
  | .ident name written => (f name).getD written

/-- The segments of a text from a scan position on. -/
def segmentsFrom : Scan → Bool → Text → List Segment
  | _, _, [] => []
  | s, inRun, c :: rest =>
    if !s.plain c then .copied c :: segmentsFrom (s.next c) false rest
    else if c == '\\' then
      match _h : identifier? rest with
      | none => .copied c :: segmentsFrom .outside false rest
      | some (name, after) => .ident name (c :: name) :: segmentsFrom .outside true after
    else if !inRun && isIdentStart c then
      .ident (c :: rest.takeWhile isIdentChar) (c :: rest.takeWhile isIdentChar) ::
        segmentsFrom .outside true (rest.dropWhile isIdentChar)
    else .copied c :: segmentsFrom .outside (isIdentChar c) rest
  termination_by _ _ t => t.length
  decreasing_by
    all_goals simp only [List.length_cons]
    · omega
    · omega
    · have := length_lt_of_identifier? _h; omega
    · have := length_dropWhile_le isIdentChar rest; omega
    · omega

theorem substituteFrom_eq_flatMap (f : Text → Option Text) (s : Scan) (inRun : Bool) (t : Text) :
    substituteFrom f s inRun t = (segmentsFrom s inRun t).flatMap (Segment.fill f) := by
  induction s, inRun, t using substituteFrom.induct with
  | case1 => rw [substituteFrom, segmentsFrom, List.flatMap_nil]
  | case2 s inRun c rest hPlain ih =>
    rw [substituteFrom, segmentsFrom, if_pos hPlain, if_pos hPlain, ih]
    rfl
  | case3 s inRun c rest hPlain hSlash hName ih =>
    -- each side matches on the name after the backslash, so each is opened by itself
    have hCopied : substituteFrom f s inRun (c :: rest) = c :: substituteFrom f .outside false rest := by
      rw [substituteFrom, if_neg hPlain, if_pos hSlash]
      split
      · rfl
      · next h => cases hName.symm.trans h
    have hSegment : segmentsFrom s inRun (c :: rest) = .copied c :: segmentsFrom .outside false rest := by
      rw [segmentsFrom, if_neg hPlain, if_pos hSlash]
      split
      · rfl
      · next h => cases hName.symm.trans h
    rw [hCopied, hSegment, ih]
    rfl
  | case4 s inRun c rest hPlain hSlash name after hName ih =>
    have hReplaced : substituteFrom f s inRun (c :: rest) =
        (f name).getD (c :: name) ++ substituteFrom f .outside true after := by
      rw [substituteFrom, if_neg hPlain, if_pos hSlash]
      split
      · next h => cases hName.symm.trans h
      · next h =>
        cases hName.symm.trans h
        rfl
    have hSegment : segmentsFrom s inRun (c :: rest) =
        .ident name (c :: name) :: segmentsFrom .outside true after := by
      rw [segmentsFrom, if_neg hPlain, if_pos hSlash]
      split
      · next h => cases hName.symm.trans h
      · next h =>
        cases hName.symm.trans h
        rfl
    rw [hReplaced, hSegment, ih]
    rfl
  | case5 s inRun c rest hPlain hSlash hStart ih =>
    rw [substituteFrom, segmentsFrom, if_neg hPlain, if_neg hPlain, if_neg hSlash, if_neg hSlash,
      if_pos hStart, if_pos hStart, ih]
    rfl
  | case6 s inRun c rest hPlain hSlash hStart ih =>
    rw [substituteFrom, segmentsFrom, if_neg hPlain, if_neg hPlain, if_neg hSlash, if_neg hSlash,
      if_neg hStart, if_neg hStart, ih]
    rfl

/-! ### Templates -/

/-- A character, or the place of an operand. -/
inductive Atom where
  | char (c : Char)
  | operand (i : Nat)
  deriving DecidableEq, Repr

abbrev Template := List Atom

namespace Template

def word (t : String) : Template := t.toList.map .char

def place (i : Nat) : Template := [.operand i]

def fillAtom (operands : List Text) : Atom → Text
  | .char c => [c]
  | .operand i => operands.getD i []

/-- The text with the operands in their places. -/
def fill (operands : List Text) (t : Template) : Text := t.flatMap (fillAtom operands)

variable (operands : List Text)

@[simp] theorem fill_append (t u : Template) : fill operands (t ++ u) = fill operands t ++ fill operands u :=
  List.flatMap_append

@[simp] theorem fill_cons (a : Atom) (t : Template) :
    fill operands (a :: t) = fillAtom operands a ++ fill operands t := List.flatMap_cons

theorem fill_map_char (t : Text) : fill operands (t.map .char) = t := by
  induction t with
  | nil => rfl
  | cons c t ih => rw [List.map_cons, fill_cons, ih]; rfl

@[simp] theorem fill_word (t : String) : fill operands (word t) = t.toList := fill_map_char operands _

@[simp] theorem fill_place (i : Nat) : fill operands (place i) = operands.getD i [] :=
  List.append_nil _

/-- Operands separated by a comma and a space. -/
def commaSeparated : List Template → Template
  | [] => []
  | [t] => t
  | t :: rest => t ++ .char ',' :: .char ' ' :: commaSeparated rest

theorem fill_commaSeparated (ts : List Template) :
    fill operands (commaSeparated ts) = Instruction.commaSeparated (ts.map (fill operands)) := by
  induction ts with
  | nil => rfl
  | cons t rest ih =>
    cases rest with
    | nil => rfl
    | cons t' rest =>
      show fill operands (t ++ .char ',' :: .char ' ' :: commaSeparated (t' :: rest)) = _
      rw [fill_append, fill_cons, fill_cons, ih]
      rfl

end Template

/-- The segment in a text whose names at these places are parameters. -/
def Segment.atoms (params : List Text) : Segment → Template
  | .copied c => [.char c]
  | .ident name written =>
    match params.idxOf? name with
    | some i => Template.place i
    | none => written.map .char

/-- The template that a text with parameters is. -/
def template (params : List Text) (t : Text) : Template :=
  (segmentsFrom .outside false t).flatMap (Segment.atoms params)

theorem lookup_zip_eq_bind (params operands : List Text) (name : Text) :
    (params.zip operands).lookup name = (params.idxOf? name).bind (operands[·]?) := by
  induction params generalizing operands with
  | nil => rfl
  | cons p params ih =>
    cases operands with
    | nil => simp
    | cons t operands =>
      rw [List.zip_cons_cons, List.lookup_cons, List.idxOf?_cons]
      by_cases hName : name = p
      · simp [hName]
      · have hOther : (name == p) = false := beq_eq_false_iff_ne.mpr hName
        have hOther' : (p == name) = false := beq_eq_false_iff_ne.mpr (Ne.symm hName)
        simp only [hOther, hOther', ih, Bool.false_eq_true, if_false, Option.bind_map]
        rfl

theorem lookup_zip {params operands : List Text} (h : operands.length = params.length) (name : Text) :
    (params.zip operands).lookup name = (params.idxOf? name).map (operands.getD · []) := by
  rw [lookup_zip_eq_bind]
  cases hIndex : params.idxOf? name with
  | none => rfl
  | some i =>
    have hLt : i < operands.length := by
      rw [h]
      exact (List.findIdx?_eq_some_iff_findIdx_eq.mp hIndex).1
    simp [hLt]

/-- Parameters are replaced all at once, and what replaces them is not looked at again. -/
theorem substitute_eq_fill {params operands : List Text} (h : operands.length = params.length)
    (t : Text) :
    substitute (fun param => (params.zip operands).lookup param) t =
      (template params t).fill operands := by
  rw [substitute, substituteFrom_eq_flatMap, template, Template.fill, List.flatMap_assoc]
  refine List.flatMap_congr fun segment _ => ?_
  cases segment with
  | copied c => rfl
  | ident name written =>
    rw [Segment.fill, lookup_zip h, Segment.atoms]
    cases params.idxOf? name with
    | none => exact (Template.fill_map_char operands written).symm
    | some i => exact (Template.fill_place operands i).symm

end NiosBoard.Text
