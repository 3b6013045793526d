import NiosBoard.Assembly.Error
import NiosBoard.Table
import NiosBoard.Text.Operands
import NiosBoard.Text.Substitution

/-! # Macros

A macro is a list of parameters and a list of body lines. A call replaces every parameter in the
body by the text of its argument, unevaluated. Names are case-insensitive, a name is defined once,
and the pseudo-instructions are macros defined from the start.
-/

namespace NiosBoard

structure MacroDef where
  params : List Text
  body : List Text
  deriving DecidableEq, Repr

/-- Macros by name in lower case. -/
structure MacroTable where
  table : Table MacroDef
  deriving Repr

namespace MacroTable

def pseudoInstructions : List (String × List String × List String) :=
  [("mov", ["dst", "src"], ["add dst, src, r0"]),
    ("movi", ["dst", "imm"], ["addi dst, r0, imm"]),
    ("movui", ["dst", "imm"], ["ori dst, r0, imm"]),
    ("movhi", ["dst", "imm"], ["orhi dst, r0, imm"]),
    ("movia", ["dst", "label"], ["orhi dst, r0, %hiadj(label)", "addi dst, dst, %lo(label)"]),
    ("nop", [], ["add r0, r0, r0"]),
    ("subi", ["dst", "src", "imm"], ["addi dst, src, -(imm)"]),
    ("cmpgt", ["dst", "lhs", "rhs"], ["cmplt dst, rhs, lhs"]),
    ("cmpgtu", ["dst", "lhs", "rhs"], ["cmpltu dst, rhs, lhs"]),
    ("cmple", ["dst", "lhs", "rhs"], ["cmpge dst, rhs, lhs"]),
    ("cmpleu", ["dst", "lhs", "rhs"], ["cmpgeu dst, rhs, lhs"]),
    ("bgt", ["lhs", "rhs", "label"], ["blt rhs, lhs, label"]),
    ("bgtu", ["lhs", "rhs", "label"], ["bltu rhs, lhs, label"]),
    ("ble", ["lhs", "rhs", "label"], ["bge rhs, lhs, label"]),
    ("bleu", ["lhs", "rhs", "label"], ["bgeu rhs, lhs, label"]),
    ("cmpgti", ["dst", "src", "imm"], ["cmpgei dst, src, (imm) + 1"]),
    ("cmpgtui", ["dst", "src", "imm"], ["cmpgeui dst, src, (imm) + 1"]),
    ("cmplei", ["dst", "src", "imm"], ["cmplti dst, src, (imm) + 1"]),
    ("cmpleui", ["dst", "src", "imm"], ["cmpltui dst, src, (imm) + 1"])]

def builtIn : MacroTable :=
  ⟨Table.ofList (pseudoInstructions.map fun (name, params, body) =>
    (name.toList, ⟨params.map String.toList, body.map String.toList⟩))⟩

def get? (m : MacroTable) (name : Text) : Option MacroDef := m.table.get? (Text.lowercase name)

def contains (m : MacroTable) (name : Text) : Bool := (m.get? name).isSome

def firstRepeated? (seen : List Text) : List Text → Option Text
  | [] => none
  | p :: rest => if p ∈ seen then some p else firstRepeated? (p :: seen) rest

def define (m : MacroTable) (name : Text) (params body : List Text) :
    Except MacroError MacroTable :=
  if m.contains name then .error (.redefinition name)
  else
    match firstRepeated? [] params with
    | some param => .error (.duplicateParameter name param)
    | none => .ok ⟨m.table.insert (Text.lowercase name) ⟨params, body⟩⟩

/-- The body lines of a call; `args` is all that follows the name. -/
def expand (m : MacroTable) (name args : Text) : Except MacroError (List Text) :=
  match m.get? name with
  | none => .error (.unknown name)
  | some d =>
    let operands := Text.splitOperands args
    if operands.length ≠ d.params.length then
      .error (.argumentCount name d.params.length operands.length)
    else .ok (d.body.map (Text.substitute fun param => (d.params.zip operands).lookup param))

end MacroTable

end NiosBoard
