import NiosBoard.Assembly.Program

/-! # What a source says, in order

The trace of a source lists its labels, instructions and data items in the order in which the first
pass meets them, macro calls expanded. It holds the text that was written and nothing that was
computed from it: no address, no register, no byte. What a program is made of is stated against it.
-/

namespace NiosBoard

open Text

/-- An instruction as it is written: its mnemonic, and all that follows. -/
structure InstructionLine where
  line : Nat
  name : Text
  operands : Text
  deriving DecidableEq, Repr

/-- A data directive as it is written. -/
structure ItemLine where
  line : Nat
  kind : DataKind
  operands : Text
  deriving DecidableEq, Repr

inductive Mark where
  /-- A label of the instruction that comes next. -/
  | codeLabel (name : Text)
  /-- A label of the data item that comes next. -/
  | dataLabel (name : Text)
  | instruction (s : InstructionLine)
  | item (s : ItemLine)
  deriving DecidableEq, Repr

namespace Mark

@[simp] def label? : Mark → Option Text
  | .codeLabel name => some name
  | .dataLabel name => some name
  | .instruction _ => none
  | .item _ => none

@[simp] def codeLabel? : Mark → Option Text
  | .codeLabel name => some name
  | .dataLabel _ => none
  | .instruction _ => none
  | .item _ => none

@[simp] def dataLabel? : Mark → Option Text
  | .codeLabel _ => none
  | .dataLabel name => some name
  | .instruction _ => none
  | .item _ => none

@[simp] def instruction? : Mark → Option InstructionLine
  | .codeLabel _ => none
  | .dataLabel _ => none
  | .instruction s => some s
  | .item _ => none

@[simp] def item? : Mark → Option ItemLine
  | .codeLabel _ => none
  | .dataLabel _ => none
  | .instruction _ => none
  | .item s => some s

end Mark

def labelsOf (ms : List Mark) : List Text := ms.filterMap Mark.label?

def codeLabelsOf (ms : List Mark) : List Text := ms.filterMap Mark.codeLabel?

def dataLabelsOf (ms : List Mark) : List Text := ms.filterMap Mark.dataLabel?

/-- Every label names code or data. -/
theorem dataLabelsOf_append_codeLabelsOf_perm (ms : List Mark) :
    (dataLabelsOf ms ++ codeLabelsOf ms).Perm (labelsOf ms) := by
  induction ms with
  | nil => exact .nil
  | cons k ms ih =>
    cases k with
    | codeLabel name => exact List.perm_middle.trans (ih.cons name)
    | dataLabel name => exact ih.cons name
    | instruction s => exact ih
    | item s => exact ih

def instructionsOf (ms : List Mark) : List InstructionLine := ms.filterMap Mark.instruction?

def itemsOf (ms : List Mark) : List ItemLine := ms.filterMap Mark.item?

/-- The marks met so far, and the region that is open after them. -/
structure Trace where
  region : Region
  marks : List Mark
  deriving DecidableEq, Repr

namespace Trace

def push (r : Trace) (k : Mark) : Trace := { r with marks := r.marks ++ [k] }

section Push

variable (r : Trace) (k : Mark)

@[simp] theorem labelsOf_push : labelsOf (r.push k).marks = labelsOf r.marks ++ k.label?.toList := by
  cases k <;> simp [labelsOf, push]

@[simp] theorem codeLabelsOf_push :
    codeLabelsOf (r.push k).marks = codeLabelsOf r.marks ++ k.codeLabel?.toList := by
  cases k <;> simp [codeLabelsOf, push]

@[simp] theorem dataLabelsOf_push :
    dataLabelsOf (r.push k).marks = dataLabelsOf r.marks ++ k.dataLabel?.toList := by
  cases k <;> simp [dataLabelsOf, push]

@[simp] theorem instructionsOf_push :
    instructionsOf (r.push k).marks = instructionsOf r.marks ++ k.instruction?.toList := by
  cases k <;> simp [instructionsOf, push]

@[simp] theorem itemsOf_push : itemsOf (r.push k).marks = itemsOf r.marks ++ k.item?.toList := by
  cases k <;> simp [itemsOf, push]

end Push

def label (namesData : Bool) (r : Trace) (name : Text) : Trace :=
  r.push (if namesData || r.region = .data then .dataLabel name else .codeLabel name)

def directive (r : Trace) (line : Nat) (t : Text) : Trace :=
  match Line.directive? t with
  | none => r
  | some (name, operands) =>
    match Directive.ofName? name with
    | some .text => { r with region := .text }
    | some .data => { r with region := .data }
    | some (.item kind) => r.push (.item ⟨line, kind, operands⟩)
    | _ => r

/-- Adds one statement, with macro calls nested at most `nesting` deep below it. -/
def statement (macros : MacroTable) (line nesting : Nat) (r : Trace) (t : Text) : Trace :=
  let body := trim (Line.labels t).2
  let r := (Line.labels t).1.foldl (label (Draft.isDataLine body)) r
  if body.head? = some '.' then r.directive line body
  else
    match Line.mnemonic? body with
    | none => r
    | some (name, operands) =>
      if macros.contains name then
        match nesting with
        | 0 => r
        | nesting + 1 =>
          match macros.expand name operands with
          | .error _ => r
          | .ok lines => lines.foldl (statement macros line nesting) r
      else r.push (.instruction ⟨line, name, operands⟩)

/-- Adds one line of the source, which is read after all that `d` has seen. -/
def readLine (d : Draft) (line : Nat) (raw : Text) (r : Trace) : Trace :=
  let t := trim (stripComment raw)
  if d.recording.isSome || (Draft.constantOperands? t).isSome then r
  else r.statement d.macros line Draft.maxNesting (d.substituteConstants t)

/-- Adds lines up to one that ends the program or is refused. -/
def readLines (line : Nat) : List Text → Draft → Trace → Trace
  | [], _, r => r
  | raw :: rest, d, r =>
    match d.readLine line raw with
    | .error _ => r.readLine d line raw
    | .ok d' =>
      if d'.ended then r.readLine d line raw
      else readLines (line + 1) rest d' (r.readLine d line raw)

end Trace

/-- The marks of a whole source. -/
def trace (source : Text) : List Mark :=
  (Trace.readLines 1 (lines source) Draft.new ⟨.text, []⟩).marks

end NiosBoard
