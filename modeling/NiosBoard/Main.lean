import NiosBoard.Cli

/-! # The executable

Reads the files, writes what the session says, and hands serial output on while the program runs.
-/

namespace NiosBoard.Executable

/-- The reason that stands for an error of the system. -/
def fileError : IO.Error → FileError
  | .noFileOrDirectory _ _ _ => .notFound
  | .permissionDenied _ number details
  | .inappropriateType _ number details
  | .invalidArgument _ number details
  | .resourceExhausted _ number details
  | .otherError number details =>
    match number.toNat with
    | 13 => .permissionDenied
    | 20 => .notDirectory
    | 21 => .isDirectory
    | 36 => .nameTooLong
    | n => .other (details ++ " (os error " ++ n.repr ++ ")")
  | .userError _ => .notText
  | e => .other (toString e)

def readText (name : Text) : IO (Except FileError Text) := do
  if name.contains '\x00' then return .error .nulInName
  match ← (IO.FS.readFile (String.ofList name)).toBaseIO with
  | .ok s => return .ok s.toList
  | .error e => return .error (fileError e)

def writeBytes (bytes : List Byte) : IO Unit := do
  let out ← IO.getStdout
  out.write ⟨(bytes.map fun b => b.toNat.toUInt8).toArray⟩
  out.flush

def finish (report : Cli.Report) : IO UInt32 := do
  writeBytes report.out
  (← IO.getStderr).putStr report.err
  return report.exit.toNat.toUInt32

/-- Runs in slices and writes the serial output of each. -/
partial def runSlices (m : Machine) (left : Option Nat) :
    IO (EStateM.Result MachineError Machine Machine.Outcome) := do
  let slice := min 4096 (left.getD 4096)
  match Machine.runWithLimit slice m with
  | .ok .limitReached m =>
    let left := left.map (· - slice)
    if left = some 0 then return .ok .limitReached m
    else
      writeBytes (Cli.serialOutput m)
      runSlices { m with bus := m.bus.drain Cli.console } left
  | r => return r

def run (args : List String) : IO UInt32 := do
  match Cli.settings (args.map String.toList) (← readText Cli.settingsFile) with
  | .error report => finish report
  | .ok settings =>
    match Cli.prepare settings (← readText settings.file) with
    | .error report => finish report
    | .ok session =>
      writeBytes (Cli.utf8 session.listing)
      finish (session.report (← runSlices session.machine settings.maxSteps))

end NiosBoard.Executable

def main (args : List String) : IO UInt32 := NiosBoard.Executable.run args
