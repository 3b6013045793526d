import NiosBoard.Machine.Board
import NiosBoard.Machine.Device
import NiosBoard.Machine.Fault
import NiosBoard.Text.Record

/-! # Memory

Byte-addressable memory made of blocks: RAM, devices, and the inputs that the panel of the board
holds. Addresses outside every block are unmapped. Wider accesses are little-endian and all
or nothing: every byte is checked before the first one is touched, and after the check nothing can
fail any more.
-/

namespace NiosBoard

/-- The inputs of the board that can be worked from outside. -/
structure Panel where
  switches : Switches
  buttons : Buttons
  uart : Uart
  deriving DecidableEq, Repr

inductive Input where
  | switches
  | buttons
  | uart
  deriving DecidableEq, Repr

namespace Panel

def new : Panel := ⟨Switches.new, Buttons.new, Uart.new⟩

def device (p : Panel) : Input → Device
  | .switches => .switches p.switches
  | .buttons => .buttons p.buttons
  | .uart => .uart p.uart

/-- Puts a device into the part of the panel that holds its kind. -/
def install (p : Panel) : Device → Panel
  | .switches d => { p with switches := d }
  | .buttons d => { p with buttons := d }
  | .uart d => { p with uart := d }
  | .leds _ => p

end Panel

inductive Backing where
  | ram (bytes : Array Byte)
  /-- A device of its own. -/
  | device (d : Device) (length : Nat)
  /-- A part of the panel. -/
  | input (input : Input) (length : Nat)
  deriving DecidableEq, Repr

structure Block where
  name : Text
  start : Word
  backing : Backing
  deriving DecidableEq, Repr

namespace Block

def length (b : Block) : Nat :=
  match b.backing with
  | .ram bytes => bytes.size
  | .device _ n => n
  | .input _ n => n

def isDevice (b : Block) : Bool :=
  match b.backing with
  | .ram _ => false
  | _ => true

def last (b : Block) : Word := b.start + BitVec.ofNat 32 (b.length - 1)

def offset (b : Block) (address : Word) : Nat := (address - b.start).toNat

def contains (b : Block) (address : Word) : Bool := b.offset address < b.length

def overlaps (b : Block) (start : Word) (length : Nat) : Bool :=
  b.contains start || decide ((b.start - start).toNat < length)

def device? (panel : Panel) (b : Block) : Option Device :=
  match b.backing with
  | .ram _ => none
  | .device d _ => some d
  | .input input _ => some (panel.device input)

def peek (panel : Panel) (b : Block) (offset : Nat) : Byte :=
  match b.backing with
  | .ram bytes => bytes.getD offset 0
  | .device d _ => d.peek offset
  | .input input _ => (panel.device input).peek offset

def contents (panel : Panel) (b : Block) : Array Byte :=
  match b.backing with
  | .ram bytes => bytes
  | _ => ((List.range b.length).map (b.peek panel)).toArray

/-- Stores into a block that is no input. -/
def store (notify : Bool) (b : Block) (address : Word) (v : Byte) : Block × List Event :=
  match b with
  | ⟨name, start, .ram bytes⟩ =>
    (⟨name, start, .ram (bytes.setIfInBounds (address - start).toNat v)⟩,
      if notify then [.memory address v] else [])
  | ⟨name, start, .device d n⟩ =>
    let (d, events) := d.write (address - start).toNat v
    (⟨name, start, .device d n⟩, events)
  | b => (b, [])

/-- A block after a reset: RAM zeroed, its own device at power-on. -/
def reset (b : Block) : Block :=
  match b.backing with
  | .ram bytes => { b with backing := .ram (Array.replicate bytes.size 0) }
  | .device d n => { b with backing := .device d.reset n }
  | .input _ _ => b

def record (b : Block) : String :=
  Text.record "Block" [("name", Text.quoted b.name), ("start", b.start.hex),
    ("len", String.ofList (Text.hexadecimal b.length)),
    ("device", if b.isDevice then "true" else "false")]

end Block

structure Memory where
  blocks : List Block
  panel : Panel
  /-- Whether every byte written to RAM is reported as an event. -/
  notifyWrites : Bool
  deriving DecidableEq, Repr

namespace Memory

/-- No blocks at all; the panel stands there with nothing in front of it. -/
def empty : Memory := ⟨[], Panel.new, false⟩

def standard : Memory where
  blocks := [
    ⟨"ram".toList, Board.ramStart, .ram (Array.replicate Board.ramSize 0)⟩,
    ⟨"leds".toList, Board.ledsStart, .device (.leds Leds.new) Board.deviceSize⟩,
    ⟨"switches".toList, Board.switchesStart, .input .switches Board.deviceSize⟩,
    ⟨"buttons".toList, Board.buttonsStart, .input .buttons Board.deviceSize⟩,
    ⟨"uart".toList, Board.uartStart, .input .uart Board.deviceSize⟩]
  panel := Panel.new
  notifyWrites := false

/-! ### Adding blocks -/

/-- Whether a block may be added at this place: not empty, inside the address space and clear of
every other block. -/
def checkRange (m : Memory) (start : Word) (length : Nat) : Except MemoryError Unit :=
  if length = 0 ∨ 1 <<< 32 < start.toNat + length then .error ⟨start, .tooLarge⟩
  else if m.blocks.any (·.overlaps start length) then .error ⟨start, .overlap⟩
  else .ok ()

def addRam (m : Memory) (name : Text) (start : Word) (length : Nat) :
    Except MemoryError Memory := do
  m.checkRange start length
  return { m with blocks := m.blocks ++ [⟨name, start, .ram (Array.replicate length 0)⟩] }

def addDevice (m : Memory) (name : Text) (start : Word) (length : Nat) (d : Device) :
    Except MemoryError Memory := do
  m.checkRange start length
  return { m with blocks := m.blocks ++ [⟨name, start, .device d length⟩] }

/-! ### Checks -/

/-- The addresses of an access, in the order they are touched. They wrap at the end of the address
space. -/
def accessed (address : Word) (n : Nat) : List Word :=
  (List.range n).map fun i => address + BitVec.ofNat 32 i

def block? (m : Memory) (address : Word) : Option Block := m.blocks.find? (·.contains address)

def isMapped (m : Memory) (address : Word) : Bool := m.blocks.any (·.contains address)

def storeError? (m : Memory) (address : Word) : Option MemoryErrorKind :=
  match m.block? address with
  | none => some .unmapped
  | some b =>
    match b.device? m.panel with
    | some d => if d.writable then none else some .readOnly
    | none => none

def checkMapped (m : Memory) : List Word → Except MemoryError Unit
  | [] => .ok ()
  | a :: rest => if m.isMapped a then m.checkMapped rest else .error ⟨a, .unmapped⟩

def checkWritable (m : Memory) : List Word → Except MemoryError Unit
  | [] => .ok ()
  | a :: rest =>
    match m.storeError? a with
    | some kind => .error ⟨a, kind⟩
    | none => m.checkWritable rest

/-! ### Reading -/

def updateFirst (address : Word) (f : Block → Block) : List Block → List Block
  | [] => []
  | b :: rest => if b.contains address then f b :: rest else b :: updateFirst address f rest

def putDevice (m : Memory) (address : Word) (b : Block) (d : Device) : Memory :=
  match b.backing with
  | .ram _ => m
  | .device _ n =>
    { m with blocks := updateFirst address (fun b => { b with backing := .device d n }) m.blocks }
  | .input _ _ => { m with panel := m.panel.install d }

/-- Reads a mapped byte; an unmapped one reads zero. -/
def fetch (m : Memory) (address : Word) : Byte × Memory :=
  match m.block? address with
  | none => (0, m)
  | some b =>
    match b.device? m.panel with
    | none => (b.peek m.panel (b.offset address), m)
    | some d =>
      let (v, d) := d.read (b.offset address)
      (v, m.putDevice address b d)

def fetchAll (m : Memory) : List Word → List Byte × Memory
  | [] => ([], m)
  | a :: rest =>
    let (v, m) := m.fetch a
    let (vs, m) := m.fetchAll rest
    (v :: vs, m)

def read (m : Memory) (width : Width) (address : Word) : Except MemoryError (Word × Memory) :=
  match m.checkMapped (accessed address width.bytes) with
  | .error e => .error e
  | .ok () =>
    let (bytes, m) := m.fetchAll (accessed address width.bytes)
    .ok (Word.ofBytes bytes, m)

def peekByte (m : Memory) (address : Word) : Except MemoryError Byte :=
  match m.block? address with
  | none => .error ⟨address, .unmapped⟩
  | some b => .ok (b.peek m.panel (b.offset address))

def peek (m : Memory) (width : Width) (address : Word) : Except MemoryError Word := do
  return Word.ofBytes (← (accessed address width.bytes).mapM m.peekByte)

/-! ### Writing -/

/-- Stores into the first block that contains the address, unless that is an input. -/
def storeIn (notify : Bool) (address : Word) (v : Byte) : List Block → List Block × List Event
  | [] => ([], [])
  | b :: rest =>
    if b.contains address then
      let (b, events) := Block.store notify b address v
      (b :: rest, events)
    else
      let (rest, events) := storeIn notify address v rest
      (b :: rest, events)

/-- The input that answers for an address, and the offset in its block. -/
def input? (m : Memory) (address : Word) : Option (Input × Nat) :=
  match m.block? address with
  | none => none
  | some b =>
    match b.backing with
    | .input input _ => some (input, b.offset address)
    | _ => none

def store (m : Memory) (address : Word) (v : Byte) : Memory × List Event :=
  match m.input? address with
  | some (input, offset) =>
    let (d, events) := (m.panel.device input).write offset v
    ({ m with panel := m.panel.install d }, events)
  | none =>
    let ⟨blocks, panel, notify⟩ := m
    let (blocks, events) := storeIn notify address v blocks
    (⟨blocks, panel, notify⟩, events)

def storeAll (m : Memory) : List (Word × Byte) → Memory × List Event
  | [] => (m, [])
  | (a, v) :: rest =>
    let (m, events) := m.store a v
    let (m, more) := m.storeAll rest
    (m, events ++ more)

def stores (width : Width) (address v : Word) : List (Word × Byte) :=
  (accessed address width.bytes).zip (littleEndian width.bytes v)

def write (m : Memory) (width : Width) (address v : Word) :
    Except MemoryError (Memory × List Event) :=
  match m.checkWritable (accessed address width.bytes) with
  | .error e => .error e
  | .ok () => .ok (m.storeAll (stores width address v))

/-! ### Images and reset -/

/-- Whether an image of the given size can be copied to an address: into one block of RAM. -/
def checkImage (m : Memory) (start : Word) (size : Nat) : Except MemoryError Unit :=
  match m.block? start with
  | none => .error ⟨start, .unmapped⟩
  | some b =>
    match b.backing with
    | .ram bytes =>
      if b.offset start + size ≤ bytes.size then .ok () else .error ⟨start, .tooLarge⟩
    | _ => .error ⟨start, .readOnly⟩

/-- An array with some of its elements, from a position on, replaced by those of another. -/
def overlay (bytes : Array Byte) (offset : Nat) (image : Array Byte) : Array Byte :=
  bytes.extract 0 offset ++ image ++ bytes.extract (offset + image.size) bytes.size

def copyImage (m : Memory) (start : Word) (image : Array Byte) : Memory :=
  { m with
    blocks := updateFirst start
      (fun b =>
        match b.backing with
        | .ram bytes => { b with backing := .ram (overlay bytes (b.offset start) image) }
        | _ => b)
      m.blocks }

def loadImage (m : Memory) (start : Word) (image : Array Byte) : Except MemoryError Memory :=
  match m.checkImage start image.size with
  | .error e => .error e
  | .ok () => .ok (m.copyImage start image)

/-- The panel after the devices behind some blocks were reset. -/
def resetInputs (p : Panel) (blocks : List Block) : Panel :=
  blocks.foldl
    (fun p b =>
      match b.backing with
      | .input input _ => p.install (p.device input).reset
      | _ => p)
    p

/-- Zeroes all RAM and resets every device that stands behind a block. -/
def reset (m : Memory) : Memory :=
  { m with blocks := m.blocks.map Block.reset, panel := resetInputs m.panel m.blocks }

/-! ### The panel -/

def toggleSwitch? (m : Memory) (index : Nat) : Option Memory :=
  (m.panel.switches.toggle? index).map fun d => { m with panel := { m.panel with switches := d } }

def setButton? (m : Memory) (index : Nat) (pressed : Bool) : Option Memory :=
  (m.panel.buttons.set? index pressed).map fun d =>
    { m with panel := { m.panel with buttons := d } }

def feedSerial (m : Memory) (c : Byte) : Memory :=
  { m with panel := { m.panel with uart := m.panel.uart.feed c } }

end Memory

end NiosBoard
