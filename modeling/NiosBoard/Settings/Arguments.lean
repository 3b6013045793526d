import NiosBoard.Settings.Basic

/-! # Command-line arguments

Options take a value, attached (`--entry=main`, `-emain`, `-e=main`) or as the next argument; flags
take none; one argument besides them is the assembly file. `--` ends the options. The value of an
option that is given separately is looked at when the next option, flag or file name is met, or at
the end, so an unknown argument in between is reported first.
-/

namespace NiosBoard

inductive ArgumentError where
  | unknownArgument
  /-- An option without its value. -/
  | missingValue
  /-- A value that is not a number. -/
  | badValue
  /-- A value given to a flag. -/
  | unneededValue
  /-- An option or flag given twice. -/
  | repeated
  | help
  | version
  deriving DecidableEq, Repr

namespace Arguments

inductive Key where
  | entry
  | maxSteps
  | input
  deriving DecidableEq, Repr

inductive Flag where
  | printInstructions
  | printState
  | help
  | version
  deriving DecidableEq, Repr

def Key.ofLong? (name : Text) : Option Key :=
  if name = "entry".toList then some .entry
  else if name = "max-steps".toList then some .maxSteps
  else if name = "input".toList then some .input
  else none

def Key.ofShort? : Char → Option Key
  | 'e' => some .entry
  | 'm' => some .maxSteps
  | 'i' => some .input
  | _ => none

def Flag.ofLong? (name : Text) : Option Flag :=
  if name = "print-instructions".toList then some .printInstructions
  else if name = "print-state".toList then some .printState
  else if name = "help".toList then some .help
  else if name = "version".toList then some .version
  else none

/-- What the arguments read so far have said. -/
structure Progress where
  settings : PartialSettings
  /-- An option whose value was not looked at yet; without a value it still waits for one. -/
  pending : Option (Key × Option Text)
  /-- Only file names follow. -/
  filesOnly : Bool
  deriving DecidableEq, Repr

/-- A number of steps: decimal digits, a plus sign perhaps, below `1 <<< 64`. -/
def count? (t : Text) : Option Nat :=
  let digits :=
    match t with
    | '+' :: rest => rest
    | t => t
  (Text.readNat? 10 digits).bind fun n => if n < 1 <<< 64 then some n else none

def apply (s : PartialSettings) (key : Key) (v : Text) : Except ArgumentError PartialSettings :=
  match key with
  | .entry => if s.entry.isSome then .error .repeated else .ok { s with entry := some v }
  | .input => if s.input.isSome then .error .repeated else .ok { s with input := some v }
  | .maxSteps =>
    if s.maxSteps.isSome then .error .repeated
    else
      match count? v with
      | some n => .ok { s with maxSteps := some n }
      | none => .error .badValue

def settle (p : Progress) : Except ArgumentError Progress :=
  match p.pending with
  | none => .ok p
  | some (_, none) => .error .missingValue
  | some (key, some v) => do
    return { p with settings := (← apply p.settings key v), pending := none }

def readKey (p : Progress) (key : Key) (attached : Option Text) : Except ArgumentError Progress := do
  let p ← settle p
  match attached with
  | none => return { p with pending := some (key, none) }
  | some v => return { p with settings := (← apply p.settings key v) }

def readFlag (p : Progress) (flag : Flag) : Except ArgumentError Progress := do
  let p ← settle p
  match flag with
  | .printInstructions =>
    if p.settings.printInstructions then throw .repeated
    return { p with settings := { p.settings with printInstructions := true } }
  | .printState =>
    if p.settings.printState then throw .repeated
    return { p with settings := { p.settings with printState := true } }
  | .help => throw .help
  | .version => throw .version

def readLong (p : Progress) (t : Text) : Except ArgumentError Progress :=
  let name := t.takeWhile (· != '=')
  let attached := match t.dropWhile (· != '=') with
    | [] => none
    | _ :: v => some v
  match Key.ofLong? name, Flag.ofLong? name with
  | some key, _ => readKey p key attached
  | none, some flag => if attached.isSome then .error .unneededValue else readFlag p flag
  | none, none => .error .unknownArgument

def readShort (p : Progress) (c : Char) (rest : Text) : Except ArgumentError Progress :=
  match Key.ofShort? c with
  | some key =>
    readKey p key
      (match rest with
      | [] => none
      | '=' :: v => some v
      | v => some v)
  | none => if c == 'V' then readFlag p .version else .error .unknownArgument

def readFile (p : Progress) (t : Text) : Except ArgumentError Progress :=
  if p.settings.file.isSome then .error .unknownArgument
  else do
    let p ← settle p
    return { p with settings := { p.settings with file := some t } }

def readOne (p : Progress) (t : Text) : Except ArgumentError Progress :=
  if p.filesOnly then readFile p t
  else
    match t, p.pending with
    | ['-', '-'], _ => .ok { p with filesOnly := true }
    | '-' :: '-' :: rest, _ => readLong p rest
    | '-' :: c :: rest, _ => readShort p c rest
    | t, some (key, none) => .ok { p with pending := some (key, some t) }
    | t, _ => readFile p t

def read (args : List Text) : Except ArgumentError PartialSettings := do
  let p ← args.foldlM readOne ⟨PartialSettings.empty, none, false⟩
  return (← settle p).settings

end Arguments

end NiosBoard
