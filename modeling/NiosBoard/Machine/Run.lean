import NiosBoard.Machine.Execute

/-! # Running programs

A step fetches the word at the program counter, decodes and executes it. The zero word halts. A
fault leaves the program counter where it was. `runWithLimit` gives up after a number of steps;
`run` has no answer for a program that goes on forever.
-/

namespace NiosBoard.Machine

/-- Reports a fault at the program counter of the given machine and keeps that program counter. -/
def faultAt {α : Type} (pc : Word) : EStateM.Result Fault Machine α →
    EStateM.Result MachineError Machine α
  | .ok x m => .ok x m
  | .error f m => .error ⟨pc, f⟩ { m with pc := pc }

def stepWord (w : Word) : Exec Fault Bool := fun m =>
  if w = 0 then .ok false ({ m with state := .halted }.publish (.halted m.steps))
  else
    match Instruction.decode w with
    | .error e => .error (.decode e) m
    | .ok i =>
      match execute i m with
      | .error f m => .error f m
      | .ok () m =>
        .ok true ({ m with pc := m.pc + 4, steps := m.steps + 1, state := .running }.publish
          (.pc (m.pc + 4)))

/-- Executes a single instruction; false once the program has halted. -/
def step : Exec MachineError Bool := fun m =>
  if m.state = .halted then .ok false m
  else
    let pc := m.pc
    faultAt pc ((loadMemory .word pc >>= stepWord) { m with registers := m.registers.resetAccess })

inductive Outcome where
  | halted
  | limitReached
  deriving DecidableEq, Repr

def stepUpTo : Nat → Exec MachineError Outcome
  | 0 => fun m => .ok .limitReached m
  | n + 1 => fun m =>
    match step m with
    | .ok true m => stepUpTo n m
    | .ok false m => .ok .halted m
    | .error e m => .error e m

def runWithLimit (limit : Nat) : Exec MachineError Outcome := fun m =>
  if m.state = .halted then .ok .halted m else stepUpTo limit m

/-- Runs until the program halts or fails; `none` if it does neither. A tactic builds the recursive
call, which leaves no trace of its place in the file inside the definition. -/
def run (m : Machine) : Option (EStateM.Result MachineError Machine Unit) :=
  match step m with
  | .ok true m => by apply run; exact m
  | .ok false m => some (.ok () m)
  | .error e m => some (.error e m)
  partial_fixpoint

end NiosBoard.Machine
