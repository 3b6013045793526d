import NiosBoard.Toml.Document

/-! # Settings

Settings come from the command line and from a file; what the command line gives wins. Only the
name of the assembly file is required.
-/

namespace NiosBoard

/-- What one source of settings gives. -/
structure PartialSettings where
  /-- The global label to start at. -/
  entry : Option Text
  /-- Stops after this many instructions. -/
  maxSteps : Option Nat
  /-- Text fed to the serial line before the program starts. -/
  input : Option Text
  /-- Prints the instructions before running them. -/
  printInstructions : Bool
  /-- Prints the final state of the machine. -/
  printState : Bool
  /-- The assembly file. -/
  file : Option Text
  deriving DecidableEq, Repr

structure Settings where
  entry : Option Text
  maxSteps : Option Nat
  input : Text
  printInstructions : Bool
  printState : Bool
  file : Text
  deriving DecidableEq, Repr

namespace PartialSettings

def empty : PartialSettings := ⟨none, none, none, false, false, none⟩

/-- Fields set in `s` win over those of `t`; a flag is on if either turns it on. -/
def merge (s t : PartialSettings) : PartialSettings where
  entry := s.entry.or t.entry
  maxSteps := s.maxSteps.or t.maxSteps
  input := s.input.or t.input
  printInstructions := s.printInstructions || t.printInstructions
  printState := s.printState || t.printState
  file := s.file.or t.file

def complete? (s : PartialSettings) : Option Settings :=
  s.file.map fun file =>
    ⟨s.entry, s.maxSteps, s.input.getD [], s.printInstructions, s.printState, file⟩

/-- A setting of a given type: absent is fine, another type is not. -/
def field? {α : Type} (ofValue : Toml.Value → Option α) (root : Toml.Entries) (key : String) :
    Option (Option α) :=
  match root.lookup key.toList with
  | none => some none
  | some (.value v) => (ofValue v).map some
  | some _ => none

def text? : Toml.Value → Option Text
  | .string s => some s
  | _ => none

def boolean? : Toml.Value → Option Bool
  | .boolean b => some b
  | _ => none

def count? : Toml.Value → Option Nat
  | .integer n => if 0 ≤ n then some n.toNat else none
  | _ => none

/-- The settings in a TOML text. Keys it does not know are ignored. -/
def ofToml? (t : Text) : Option PartialSettings := do
  let root ← Toml.parse? t
  let _ ← field? boolean? root "help"
  let entry ← field? text? root "entry"
  let maxSteps ← field? count? root "max_steps"
  let input ← field? text? root "input"
  let printInstructions ← field? boolean? root "print_instructions"
  let printState ← field? boolean? root "print_state"
  let file ← field? text? root "file"
  return ⟨entry, maxSteps, input, printInstructions.getD false, printState.getD false, file⟩

end PartialSettings

end NiosBoard
