import NiosBoard.Machine.Fault

/-! # The register file

Thirty-two registers, each disabled or holding a word together with what happened to it during the
current step. Register 0 reads zero and ignores writes. An index above 31 behaves like a disabled
register.
-/

namespace NiosBoard

/-- What happened to a register during the current step. A read does not hide a write. -/
inductive Access where
  | untouched
  | read
  | written
  deriving DecidableEq, Repr

/-- A register: not available to programs, or its contents. -/
inductive Cell where
  | disabled
  | enabled (value : Word) (access : Access)
  deriving DecidableEq, Repr

namespace Cell

/-- The contents; a disabled register shows zero. -/
def value : Cell → Word
  | .disabled => 0
  | .enabled v _ => v

def access? : Cell → Option Access
  | .disabled => none
  | .enabled _ a => some a

def markRead : Cell → Cell
  | .enabled v .written => .enabled v .written
  | .enabled v _ => .enabled v .read
  | .disabled => .disabled

/-- Stores a word, unless this is register 0. -/
def store (index : Nat) (w : Word) : Cell → Cell
  | .enabled v _ => .enabled (if index = 0 then v else w) .written
  | .disabled => .disabled

def forget : Cell → Cell
  | .enabled v _ => .enabled v .untouched
  | .disabled => .disabled

def clear : Cell → Cell
  | .enabled _ _ => .enabled 0 .untouched
  | .disabled => .disabled

def enable : Cell → Cell
  | .disabled => .enabled 0 .untouched
  | cell => cell

end Cell

structure RegisterFile where
  cells : Vector Cell 32
  deriving DecidableEq, Repr

namespace RegisterFile

def new : RegisterFile := ⟨Vector.replicate 32 (.enabled 0 .untouched)⟩

def cell (r : RegisterFile) (i : Nat) : Cell := (r.cells[i]?).getD .disabled

/-- Changes one register; an index above 31 changes nothing. -/
def update (r : RegisterFile) (i : Nat) (f : Cell → Cell) : RegisterFile :=
  ⟨r.cells.setIfInBounds i (f (r.cell i))⟩

@[simp] theorem cell_update (r : RegisterFile) (i j : Nat) (f : Cell → Cell) :
    (r.update i f).cell j = if i = j ∧ j < 32 then f (r.cell j) else r.cell j := by
  unfold cell update
  by_cases h : i = j
  · subst h
    by_cases hi : i < 32
    · simp [hi, cell]
    · simp [hi]
  · simp [h]

def peek (r : RegisterFile) (i : Nat) : Word := (r.cell i).value

/-- What happened to a register; `none` if it is disabled. -/
def access? (r : RegisterFile) (i : Nat) : Option Access := (r.cell i).access?

def isEnabled (r : RegisterFile) (i : Nat) : Bool := (r.access? i).isSome

def touch (r : RegisterFile) (i : Nat) : RegisterFile := r.update i Cell.markRead

def store (r : RegisterFile) (i : Nat) (w : Word) : RegisterFile := r.update i (Cell.store i w)

/-- Fails exactly when a read or a write would. -/
def check (r : RegisterFile) (i : Nat) : Except RegisterError Unit :=
  if r.isEnabled i then .ok () else .error ⟨i⟩

def read (r : RegisterFile) (i : Nat) : Except RegisterError (Word × RegisterFile) :=
  match r.check i with
  | .ok () => .ok (r.peek i, r.touch i)
  | .error e => .error e

def write (r : RegisterFile) (i : Nat) (w : Word) : Except RegisterError RegisterFile :=
  match r.check i with
  | .ok () => .ok (r.store i w)
  | .error e => .error e

def resetAccess (r : RegisterFile) : RegisterFile := ⟨r.cells.map Cell.forget⟩

/-- Zeroes every register; disabled ones stay disabled. -/
def clear (r : RegisterFile) : RegisterFile := ⟨r.cells.map Cell.clear⟩

def disable (r : RegisterFile) (i : Nat) : RegisterFile := r.update i fun _ => .disabled

def enable (r : RegisterFile) (i : Nat) : RegisterFile := r.update i Cell.enable

def displayCell (i : Nat) (c : Cell) : String :=
  let name := "r" ++ String.ofList (List.replicate (2 - (Text.natDecimal i).length) '0' ++ Text.natDecimal i)
  let value := String.ofList (Text.hexPadded 8 c.value.toNat)
  match c.access? with
  | none => Style.dimmed name ++ ": " ++ Style.dimmed "--------" ++ " "
  | some .written => Style.blue name ++ ": " ++ Style.yellow value ++ " "
  | some _ => Style.blue name ++ ": " ++ value ++ " "

def display (r : RegisterFile) : String :=
  String.join ((List.range 32).map fun i =>
    displayCell i (r.cell i) ++ if i % 4 = 3 then "\n" else "")

end RegisterFile

/-- A way to view the low bytes of a register as a number. -/
structure NumberView where
  width : Width
  signed : Bool
  deriving DecidableEq, Repr

namespace NumberView

def bits (v : NumberView) : Nat := 8 * v.width.bytes

/-- The register contents for a number, truncated to the view and extended as it says. -/
def toWord (v : NumberView) (x : Int) : Word :=
  let low := BitVec.ofInt v.bits x
  if v.signed then low.signExtend 32 else low.setWidth 32

def ofWord (v : NumberView) (w : Word) : Int :=
  let low := w.setWidth v.bits
  if v.signed then low.toInt else low.toNat

end NumberView

end NiosBoard
