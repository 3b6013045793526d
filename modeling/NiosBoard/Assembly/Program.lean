import NiosBoard.Assembly.Draft

/-! # Assembled programs

The image is the instruction words, a zero word, then the data items one after another. `layout`
gives every data label its address before any byte is known; `emitVariable` appends the items one
by one, each at the end of the image so far.
-/

namespace NiosBoard

structure Program where
  image : Array Byte
  /-- Every label and its address. -/
  symbols : Table Word
  /-- Names declared global, each with the line that declared it. -/
  globals : Table Nat
  /-- The source line of each instruction, in address order. -/
  lines : Array Nat
  deriving Repr

namespace Program

def start (_ : Program) : Word := Board.ramStart

def length (p : Program) : Nat := p.lines.size

def isEmpty (p : Program) : Bool := p.lines.isEmpty

/-- The address right after the zero word. -/
def dataStart (p : Program) : Word := p.start + BitVec.ofNat 32 (4 * p.length) + 4

def symbol? (p : Program) (name : Text) : Option Word := p.symbols.get? name

def global (p : Program) (name : Text) : Except LineError Word :=
  match p.globals.get? name with
  | none => .error (Cause.atLine (.statement (.notGlobal name)) 0)
  | some line =>
    match p.symbol? name with
    | none => .error (Cause.atLine (.statement (.undefinedSymbol name)) line)
    | some address => .ok address

/-- The address of the first instruction that source line `line` gave. -/
def addressOfLine? (p : Program) (line : Nat) : Option Word :=
  (p.lines.toList.findIdx? (· == line)).map fun i => p.start + BitVec.ofNat 32 (4 * i)

def lineOfAddress? (p : Program) (address : Word) : Option Nat :=
  if address.toNat < p.start.toNat then none
  else
    let offset := address.toNat - p.start.toNat
    if offset % 4 = 0 then p.lines[offset / 4]? else none

end Program

namespace Draft

def dataStart (d : Draft) : Word := Board.ramStart + BitVec.ofNat 32 (4 * d.code.size) + 4

def place (labels : List Text) (address : Word) (symbols : Table Word) : Table Word :=
  labels.foldl (fun symbols name => symbols.insert name address) symbols

/-- Places the variables one after another from `address` on; answers the table with their labels
and the end of the data. The end must stay inside the address space. -/
def layout (address : Word) (symbols : Table Word) :
    List Variable → Except LineError (Table Word × Word)
  | [] => .ok (symbols, address)
  | v :: rest =>
    let size := v.item.size address
    if address.uaddOverflow size then .error (Cause.atLine (.statement .dataOverflow) v.line)
    else layout (address + size) (place v.labels address symbols) rest

def instructions (d : Draft) (symbols : Symbols) : Except LineError (List Instruction) :=
  d.code.toList.mapM (·.instruction symbols)

/-- The image of the code alone: the instruction words and the zero word. -/
def codeImage (instructions : List Instruction) : List Byte :=
  instructions.flatMap (fun i => littleEndian 4 i.encode) ++ littleEndian 4 (0 : Word)

/-- Appends a data item at the end of the image so far, which is not cut where its address is. -/
def emitVariable (symbols : Symbols) (image : Array Byte) (v : Variable) :
    Except LineError (Array Byte) :=
  match v.item.emit (Board.ramStart + BitVec.ofNat 32 image.size) symbols with
  | .ok bytes => .ok (image ++ bytes)
  | .error e => .error (Cause.atLine (.expression e) v.line)

/-- The second pass. Labels that still wait name the end of the data. -/
def link (d : Draft) : Except LineError Program := do
  let (placed, dataEnd) ← layout d.dataStart d.symbols d.data.toList
  let symbols := place d.waiting dataEnd placed
  let instructions ← d.instructions symbols.get?
  let image ← d.data.foldlM (emitVariable symbols.get?) (codeImage instructions).toArray
  return { image, symbols, globals := d.globals, lines := d.code.map (·.line) }

end Draft

def assemble (source : Text) : Except LineError Program := do
  (← Draft.ofSource source).link

end NiosBoard
