import NiosBoard.Expression.Token

/-! # Assembly errors

An error is a cause, the source line it belongs to, and for some causes a tip. Line 0 stands for no
line at all.
-/

namespace NiosBoard

inductive MacroError where
  | unknown (name : Text)
  | argumentCount (name : Text) (expected found : Nat)
  | redefinition (name : Text)
  | duplicateParameter (name param : Text)
  | expectedName
  | unterminated (name : Text)
  | recursionLimit (name : Text)
  deriving DecidableEq, Repr

inductive StatementError where
  | unknownInstruction (name : Text)
  | unknownDirective (name : Text)
  | expectedRegister (found : Option Text)
  | operandCount (mnemonic : String) (expected found : Nat)
  | expectedMemoryOperand (found : Text)
  | expectedString (found : Option Text)
  | duplicateLabel (name : Text)
  | invalidName (name : Text)
  | malformedEqu (text : Text)
  | instructionInData (name : Text)
  | dataOverflow
  | invalidSize (text : Text)
  | notGlobal (name : Text)
  | undefinedSymbol (name : Text)
  deriving DecidableEq, Repr

inductive Cause where
  | expression (e : ExpressionError)
  | expansion (e : MacroError)
  | statement (e : StatementError)
  deriving DecidableEq, Repr

/-- Why a source text was refused, and where. -/
structure LineError where
  line : Nat
  cause : Cause
  tip : Option String
  deriving DecidableEq, Repr

def MacroError.message : MacroError → String
  | .unknown name => "Unknown macro '" ++ Style.yellow (String.ofList name) ++ "'"
  | .argumentCount name expected found =>
    "Macro '" ++ Style.blue (String.ofList name) ++ "' takes " ++ Style.blue expected.repr ++
      " argument(s), but " ++ Style.yellow found.repr ++ " were given"
  | .redefinition name => "Macro '" ++ Style.yellow (String.ofList name) ++ "' is already defined"
  | .duplicateParameter name param =>
    "The parameter '" ++ Style.yellow (String.ofList param) ++ "' in macro '" ++
      Style.blue (String.ofList name) ++ "' was declared more than once"
  | .expectedName => "Expected a macro name after " ++ Style.blue ".macro"
  | .unterminated name =>
    "Macro '" ++ Style.yellow (String.ofList name) ++ "' was not terminated by " ++
      Style.blue ".endm"
  | .recursionLimit name =>
    "Macro '" ++ Style.yellow (String.ofList name) ++ "' expands too deeply (is it recursive?)"

def StatementError.message : StatementError → String
  | .unknownInstruction name =>
    "Unknown instruction '" ++ Style.yellow (String.ofList name) ++ "'"
  | .unknownDirective name =>
    "Unknown directive '" ++ Style.yellow "." ++ Style.yellow (String.ofList name) ++ "'"
  | .expectedRegister found =>
    "Expected a register name, but found '" ++ Style.yellow (foundText found) ++ "'"
  | .operandCount mnemonic expected found =>
    "'" ++ Style.blue mnemonic ++ "' expects " ++ Style.blue expected.repr ++
      " operand(s), but found " ++ Style.yellow found.repr
  | .expectedMemoryOperand found =>
    "Expected a memory operand like " ++ Style.blue "offset(rA)" ++ ", but found '" ++
      Style.yellow (String.ofList found) ++ "'"
  | .expectedString found =>
    "Expected a string literal, but found '" ++ Style.yellow (foundText found) ++ "'"
  | .duplicateLabel name =>
    "Label '" ++ Style.yellow (String.ofList name) ++ "' is defined more than once"
  | .invalidName name =>
    "'" ++ Style.yellow (String.ofList name) ++
      "' is not a valid name here. Names must be identifiers."
  | .malformedEqu t =>
    Style.yellow (String.ofList t) ++ " should have a name and a value: " ++
      Style.blue ".equ <name>, <value>"
  | .instructionInData name =>
    "Instruction '" ++ Style.yellow (String.ofList name) ++ "' inside a data section"
  | .dataOverflow => "Data runs past the end of the address space"
  | .invalidSize t => "'" ++ Style.yellow (String.ofList t) ++ "' must be a constant"
  | .notGlobal name =>
    "Symbol '" ++ Style.yellow (String.ofList name) ++ "' was not declared with " ++
      Style.blue ".global"
  | .undefinedSymbol name => "Symbol '" ++ Style.yellow (String.ofList name) ++ "' is not defined"

def Cause.message : Cause → String
  | .expression e => e.message
  | .expansion e => e.message
  | .statement e => e.message

def Cause.atLine (cause : Cause) (line : Nat) : LineError := ⟨line, cause, none⟩

def LineError.message (e : LineError) : String :=
  let what :=
    match e.tip with
    | none => e.cause.message
    | some tip => e.cause.message ++ "\n   " ++ Style.yellow "[tip]" ++ ": " ++ tip
  Style.bold what ++ "\n   " ++ Style.bold (Style.blue "-->") ++ " line " ++
    Style.yellow e.line.repr

def located {α : Type} (line : Nat) : Except Cause α → Except LineError α
  | .ok x => .ok x
  | .error cause => .error (cause.atLine line)

end NiosBoard
