import NiosBoard.Files
import NiosBoard.Machine.Run
import NiosBoard.Settings.Arguments
import NiosBoard.Text.Record

/-! # The command line

Assembles a file, runs it, and shows what it sends over the serial line. The exit code is the low
byte of `r2`. Everything here is a function of the arguments and of what the files hold; a program
that never stops has no report.
-/

namespace NiosBoard.Cli

def settingsFile : Text := "niosim.toml".toList

structure Report where
  exit : Byte
  out : List Byte
  err : String
  deriving DecidableEq, Repr

abbrev FileReader := Text → Except FileError Text

def utf8 (s : String) : List Byte := DataItem.utf8 s.toList

def refused (message : String) : Report := ⟨1, [], message ++ "\n"⟩

def usage : String := "Usage: niosim [OPTIONS] [FILE]\n"

def help : String :=
  "Instructional Nios-style processor simulator: assembler, decoder, and memory-mapped I/O\n\n" ++
  usage ++ "\nArguments:\n  [FILE]  The assembly file to execute\n\nOptions:\n" ++
  "      --help                   \n" ++
  "  -e, --entry <ENTRY>          Starts execution at this `.global` label instead of the first\n" ++
  "                               instruction\n" ++
  "  -m, --max-steps <MAX_STEPS>  Stops after this many instructions\n" ++
  "  -i, --input <INPUT>          Text fed to the serial port before the program starts\n" ++
  "      --print-instructions     Prints the assembled instructions before running them\n" ++
  "      --print-state            Prints the final state of the program after execution\n" ++
  "  -V, --version                Print version\n"

def argumentReport : ArgumentError → Report
  | .help => ⟨0, utf8 help, ""⟩
  | .version => ⟨0, utf8 "niosim 0.3.0\n", ""⟩
  | .unknownArgument => rejected "unexpected argument found"
  | .missingValue => rejected "a value is required for an option but none was supplied"
  | .badValue => rejected "invalid value for '--max-steps <MAX_STEPS>'"
  | .unneededValue => rejected "unexpected value for a flag found; no more were expected"
  | .repeated => rejected "an argument cannot be used multiple times"
where
  rejected (message : String) : Report :=
    ⟨2, [], "error: " ++ message ++ "\n\n" ++ usage ++ "\nFor more information, try '--help'.\n"⟩

/-! ### Error records -/

def kindRecord : MemoryErrorKind → String
  | .unmapped => "Unmapped"
  | .readOnly => "ReadOnly"
  | .overlap => "Overlap"
  | .tooLarge => "TooLarge"

def faultRecord : Fault → String
  | .decode e => "Decode(DecodeError(" ++ e.word.toNat.repr ++ "))"
  | .register e => "Register(RegisterError(" ++ e.index.repr ++ "))"
  | .memory e =>
    "Memory(" ++ Text.record "MemoryError"
      [("address", e.address.toNat.repr), ("kind", kindRecord e.kind)] ++ ")"
  | .misalignedPc pc => "MisalignedPc(" ++ pc.toNat.repr ++ ")"
  | .divisionByZero => "DivisionByZero"

def errorRecord (e : MachineError) : String :=
  Text.record "EmulatorError" [("pc", e.pc.toNat.repr), ("fault", faultRecord e.fault)]

def fileErrorRecord (e : FileError) : String :=
  match e.system? with
  | some (number, name, wording) =>
    Text.record "Os" [("code", number.repr), ("kind", name),
      ("message", Text.quoted wording.toList)]
  | none =>
    Text.record "Error" [("kind", if e = .nulInName then "InvalidInput" else "InvalidData"),
      ("message", Text.quoted e.message.toList)]

/-! ### Settings -/

/-- The settings file's contribution; a missing file has none. -/
def fileSettings (settingsText : Except FileError Text) : Except Report PartialSettings :=
  match settingsText with
  | .error .notFound => .ok PartialSettings.empty
  | .error e => .error (refused ("Error: Io(" ++ fileErrorRecord e ++ ")"))
  | .ok t =>
    match PartialSettings.ofToml? t with
    | some s => .ok s
    | none => .error (refused "Error: Toml")

def settings (args : List Text) (settingsText : Except FileError Text) : Except Report Settings :=
  match Arguments.read args with
  | .error e => .error (argumentReport e)
  | .ok given => do
    let s := given.merge (← fileSettings settingsText)
    match s.complete? with
    | some s => return s
    | none => throw (refused "Error: NoFile")

/-! ### Sessions -/

structure Session where
  settings : Settings
  machine : Machine
  /-- What is printed before the first instruction. -/
  listing : String

/-- The number of the listener that collects serial output. -/
def console : Nat := 0

def listingLine (m : Machine) (address : Word) : String :=
  address.hex ++ "  " ++
    (match m.disassemble address with
    | .ok i => String.ofList i.text
    | .error e => e.message) ++ "\n"

def listing (p : Program) (m : Machine) : String :=
  String.join ((List.range p.length).map fun i => listingLine m (p.start + BitVec.ofNat 32 (4 * i)))

def entryAddress (s : Settings) (p : Program) : Except Report Word :=
  match s.entry with
  | none => .ok p.start
  | some name =>
    match p.global name with
    | .ok address => .ok address
    | .error e => .error (refused (Style.bold (Style.red "error") ++ ": " ++ e.message))

def cannotOpen (file : Text) (e : FileError) : Report :=
  refused ("Error: " ++
    Text.quoted ("Can't open <".toList ++ file ++ ">: ".toList ++ e.message.toList))

/-- Assembles and loads the source, and queues the input. -/
def prepare (s : Settings) (source : Except FileError Text) : Except Report Session := do
  match source with
  | .error e => throw (cannotOpen s.file e)
  | .ok source =>
    match assemble source with
    | .error e =>
      throw (refused (Style.bold (Style.red "error") ++ " in " ++ String.ofList s.file ++ ":\n" ++
        e.message))
    | .ok p =>
      let entry ← entryAddress s p
      match Machine.loadAt p entry Machine.new with
      | .error e _ => throw (refused ("Error: " ++ errorRecord e))
      | .ok () m =>
        let shown := if s.printInstructions then listing p m else ""
        let m := m.subscribe.2
        let memory := (DataItem.utf8 s.input).foldl Memory.feedSerial m.memory
        return ⟨s, { m with memory := memory }, shown⟩

/-- The bytes sent over the serial line and not yet taken from the console. -/
def serialOutput (m : Machine) : List Byte :=
  ((m.bus.pending? console).getD []).filterMap fun
    | .serial v => some v
    | _ => none

def Session.outcome (s : Session) : Option (EStateM.Result MachineError Machine Machine.Outcome) :=
  match s.settings.maxSteps with
  | some limit => some (Machine.runWithLimit limit s.machine)
  | none =>
    (Machine.run s.machine).map fun
      | .ok () m => .ok .halted m
      | .error e m => .error e m

def Session.report (s : Session) (r : EStateM.Result MachineError Machine Machine.Outcome) : Report :=
  let state (m : Machine) : String := if s.settings.printState then m.display else ""
  let exit (m : Machine) : Byte := (m.peekRegister 2).setWidth 8
  match r with
  | .ok .halted m => ⟨exit m, serialOutput m, state m⟩
  | .ok .limitReached m =>
    ⟨exit m, serialOutput m, state m ++ "\n" ++ Style.bold (Style.yellow "warning:") ++
      " instruction limit reached\n"⟩
  | .error e m => ⟨1, serialOutput m, state m ++ "\n" ++ e.message ++ "\n"⟩

def Session.run (s : Session) : Option Report :=
  s.outcome.map fun r =>
    let report := s.report r
    { report with out := utf8 s.listing ++ report.out }

def run (args : List Text) (read : FileReader) : Option Report :=
  match settings args (read settingsFile) with
  | .error report => some report
  | .ok s =>
    match prepare s (read s.file) with
    | .error report => some report
    | .ok session => session.run

end NiosBoard.Cli
