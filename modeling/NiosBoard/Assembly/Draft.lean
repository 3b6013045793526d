import NiosBoard.Assembly.Data
import NiosBoard.Assembly.Line
import NiosBoard.Assembly.Macros
import NiosBoard.Assembly.Pending

/-! # The first pass

A draft is what the lines read so far have said. Constants are substituted, macro calls expanded,
code labels get their address at once; data labels wait for the next data item, because data is
placed only when all code is known. Calls nest at most `maxNesting` deep.
-/

namespace NiosBoard

/-- Where the statements that follow belong. -/
inductive Region where
  | text
  | data
  deriving DecidableEq, Repr

/-- A data item with the labels that point at it. -/
structure Variable where
  labels : List Text
  item : DataItem
  line : Nat
  deriving DecidableEq, Repr

/-- A macro whose body is still being read. -/
structure Recording where
  name : Text
  params : List Text
  body : Array Text
  line : Nat
  deriving Repr

structure Draft where
  region : Region
  code : Array Pending
  data : Array Variable
  /-- Data labels that wait for the next data item. -/
  waiting : List Text
  /-- Every label seen. -/
  defined : List Text
  /-- Code labels and their addresses. -/
  symbols : Table Word
  constants : Table Text
  /-- Names declared global, each with the line of its last declaration. -/
  globals : Table Nat
  macros : MacroTable
  recording : Option Recording
  ended : Bool
  deriving Repr

inductive Directive where
  | text
  | data
  | equ
  | global
  | openMacro
  | closeMacro
  | finish
  | item (kind : DataKind)
  deriving DecidableEq, Repr

def Directive.ofName? (name : Text) : Option Directive :=
  let table := [("text", Directive.text), ("data", .data), ("equ", .equ), ("set", .equ),
    ("global", .global), ("globl", .global), ("macro", .openMacro), ("endm", .closeMacro),
    ("end_macro", .closeMacro), ("end", .finish)]
  match table.findSome? fun (n, d) => if n.toList = Text.lowercase name then some d else none with
  | some d => some d
  | none => (DataKind.ofName? (Text.lowercase name)).map .item

namespace Draft

open Text

def maxNesting : Nat := 16

def new : Draft where
  region := .text
  code := #[]
  data := #[]
  waiting := []
  defined := []
  symbols := Table.empty
  constants := Table.empty
  globals := Table.empty
  macros := MacroTable.builtIn
  recording := none
  ended := false

def codeAddress (i : Nat) : Word := Board.ramStart + BitVec.ofNat 32 (4 * i)

def substituteConstants (d : Draft) (t : Text) : Text := substitute d.constants.get? t

/-- A label names data when a data directive follows it on its line or the data region is open;
otherwise it names the next instruction. -/
def defineLabel (d : Draft) (name : Text) (namesData : Bool) : Except Cause Draft :=
  if d.defined.contains name then .error (.statement (.duplicateLabel name))
  else if namesData || d.region = .data then
    .ok { d with defined := name :: d.defined, waiting := d.waiting ++ [name] }
  else
    .ok { d with
      defined := name :: d.defined
      symbols := d.symbols.insert name (codeAddress d.code.size) }

/-- Defines a constant from the operands `NAME, VALUE`; its value is text. -/
def defineConstant (d : Draft) (operands : Text) (substituted : Bool) : Except Cause Draft :=
  match splitOperands operands with
  | [name, value] =>
    if !isIdentifier name then .error (.statement (.invalidName name))
    else if value = [] then .error (.statement (.malformedEqu (trim operands)))
    else
      let value := if substituted then d.substituteConstants value else value
      .ok { d with constants := d.constants.insert name value }
  | _ => .error (.statement (.malformedEqu (trim operands)))

def declareGlobals (d : Draft) (line : Nat) (names : List Text) : Except Cause Draft :=
  names.foldlM
    (fun d name =>
      if isIdentifier name then .ok { d with globals := d.globals.insert name line }
      else .error (.statement (.invalidName name)))
    d

def constantOperands? (t : Text) : Option Text :=
  match Line.directive? t with
  | some (name, operands) => if Directive.ofName? name = some .equ then some operands else none
  | none => none

def isDataLine (t : Text) : Bool :=
  match Line.directive? t with
  | some (name, _) => (DataKind.ofName? (lowercase name)).isSome
  | none => false

def directive (d : Draft) (line : Nat) (t : Text) : Except LineError Draft :=
  match Line.directive? t with
  | none => .error (Cause.atLine (.statement (.unknownDirective [])) line)
  | some (name, operands) =>
    match Directive.ofName? name with
    | some .text => .ok { d with region := .text }
    | some .data => .ok { d with region := .data }
    | some .equ => located line (d.defineConstant operands false)
    | some .global => located line (d.declareGlobals line (splitOperands operands))
    | some .openMacro =>
      match Line.macroHeader? t with
      | none => .error (Cause.atLine (.expansion .expectedName) line)
      | some (header, _) =>
        .ok { d with recording := some ⟨header.name, header.params, #[], line⟩ }
    | some .closeMacro =>
      .error ⟨line, .statement (.unknownDirective name), some "there is no .macro to close here"⟩
    | some .finish => .ok { d with ended := true }
    | some (.item kind) => do
      let item ← located line (DataItem.ofOperands kind operands)
      return { d with
        waiting := []
        data := d.data.push ⟨d.waiting, item, line⟩ }
    | none => .error (Cause.atLine (.statement (.unknownDirective (lowercase name))) line)

def appendInstruction (d : Draft) (line : Nat) (name operands : Text) : Except LineError Draft :=
  match Opcode.ofMnemonic? name with
  | none => .error (Cause.atLine (.statement (.unknownInstruction name)) line)
  | some o => do
    let p ← located line (Pending.ofOperands o line (codeAddress d.code.size) operands)
    return { d with code := d.code.push p }

/-- Carries out one statement, with macro calls nested at most `nesting` deep below it. -/
def statement (nesting line : Nat) (t : Text) (d : Draft) : Except LineError Draft := do
  let (labels, body) := Line.labels t
  let body := trim body
  let d ← located line (labels.foldlM (fun d name => d.defineLabel name (isDataLine body)) d)
  if body = [] then return d
  else if body.head? = some '.' then d.directive line body
  else
    match Line.mnemonic? body with
    | none => throw (Cause.atLine (.statement (.unknownInstruction body)) line)
    | some (name, operands) =>
      if d.region = .data then
        throw ⟨line, .statement (.instructionInData name),
          some "instructions go after a .text directive"⟩
      else if d.macros.contains name then
        match nesting with
        | 0 => throw (Cause.atLine (.expansion (.recursionLimit name)) line)
        | nesting + 1 =>
          match d.macros.expand name operands with
          | .error e => throw (Cause.atLine (.expansion e) line)
          | .ok body => body.foldlM (fun d t => statement nesting line t d) d
      else d.appendInstruction line name operands

/-- Enters the recorded macro into the table; what is wrong with it belongs to the line that
opened it. -/
def closeRecording (d : Draft) (r : Recording) : Except LineError Draft :=
  match d.macros.define r.name r.params r.body.toList with
  | .ok macros => .ok { d with macros := macros, recording := none }
  | .error e => .error (Cause.atLine (.expansion e) r.line)

/-- Reads one line of the source. The name of a constant that is being redefined is not
substituted. -/
def readLine (d : Draft) (line : Nat) (raw : Text) : Except LineError Draft :=
  let t := trim (stripComment raw)
  match d.recording with
  | some r =>
    if Line.closesMacro t then d.closeRecording r
    else .ok { d with recording := some { r with body := r.body.push (d.substituteConstants t) } }
  | none =>
    match constantOperands? t with
    | some operands => located line (d.defineConstant operands true)
    | none => d.statement maxNesting line (d.substituteConstants t)

/-- Reads lines, the first of which has the given number, up to one that ends the program. -/
def readLines (line : Nat) : List Text → Draft → Except LineError Draft
  | [], d => .ok d
  | raw :: rest, d => do
    let d ← d.readLine line raw
    if d.ended then return d else readLines (line + 1) rest d

/-- Reads a whole source text. A macro that is never closed is refused. -/
def ofSource (source : Text) : Except LineError Draft := do
  let d ← readLines 1 (lines source) new
  match d.recording with
  | none => return d
  | some r => throw (Cause.atLine (.expansion (.unterminated r.name)) r.line)

end Draft

end NiosBoard
