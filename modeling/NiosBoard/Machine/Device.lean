import NiosBoard.Machine.Event

/-! # Peripherals

A device answers byte accesses at offsets from the start of its block. Reads may have side effects;
peeks have none. Switches and buttons are set from outside and survive a reset.
-/

namespace NiosBoard

/-- Four LEDs, driven by the low bits of the byte at offset 0. -/
structure Leds where
  state : BitVec 4
  deriving DecidableEq, Repr

/-- Four slide switches, one bit each. -/
structure Switches where
  state : BitVec 4
  deriving DecidableEq, Repr

/-- Four push buttons, one bit each, set while held down. -/
structure Buttons where
  state : BitVec 4
  deriving DecidableEq, Repr

/-- Serial line. Characters from outside queue behind the receive register.

    offset   read                  write
    0        received character    ignored
    1        0                     transmit
    2        status                ignored
    other    0                     ignored -/
structure Uart where
  rx : Byte
  ready : Bool
  queue : List Byte
  deriving DecidableEq, Repr

namespace Leds

def new : Leds := ⟨0⟩

def peek (d : Leds) (offset : Nat) : Byte := if offset = 0 then d.state.setWidth 8 else 0

def write (d : Leds) (offset : Nat) (v : Byte) : Leds × List Event :=
  if offset = 0 then (⟨v.setWidth 4⟩, [.leds (v.setWidth 4)]) else (d, [])

end Leds

namespace Switches

def new : Switches := ⟨0⟩

def toggle? (d : Switches) (index : Nat) : Option Switches :=
  if index < 4 then some ⟨d.state ^^^ (1#4 <<< index)⟩ else none

/-- A byte of the switch word, which repeats every four offsets. -/
def peek (d : Switches) (offset : Nat) : Byte := byteAt (d.state.setWidth 32) (offset % 4)

end Switches

namespace Buttons

def new : Buttons := ⟨0⟩

def set? (d : Buttons) (index : Nat) (pressed : Bool) : Option Buttons :=
  if index < 4 then
    some ⟨if pressed then d.state ||| (1#4 <<< index) else d.state &&& ~~~(1#4 <<< index)⟩
  else none

def peek (d : Buttons) (offset : Nat) : Byte := if offset = 0 then d.state.setWidth 8 else 0

end Buttons

namespace Uart

def new : Uart := ⟨0, false, []⟩

def rxOffset : Nat := 0

def txOffset : Nat := 1

def statusOffset : Nat := 2

def rxReady : Byte := 1

def feed (d : Uart) (c : Byte) : Uart := { d with queue := d.queue ++ [c] }

/-- Moves the next queued character into the receive register if that is free. -/
def refill (d : Uart) : Uart :=
  match d.ready, d.queue with
  | false, c :: rest => ⟨c, true, rest⟩
  | _, _ => d

/-- Bit 1 says that the transmitter is idle, which it always is; bit 0 that a character waits. -/
def status (d : Uart) : Byte := if d.ready then 3 else 2

def read (d : Uart) (offset : Nat) : Byte × Uart :=
  let d := d.refill
  if offset = rxOffset then (d.rx, { d with ready := false })
  else if offset = statusOffset then (d.status, d)
  else (0, d)

/-- The character that the next access would move into the receive register. -/
def next? (d : Uart) : Option Byte := if d.ready then none else d.queue.head?

def peek (d : Uart) (offset : Nat) : Byte :=
  let next := d.next?
  if offset = rxOffset then next.getD d.rx
  else if offset = statusOffset then if next.isSome then d.status ||| rxReady else d.status
  else 0

def write (d : Uart) (offset : Nat) (v : Byte) : Uart × List Event :=
  (d.refill, if offset = txOffset then [.serial v] else [])

end Uart

inductive Device where
  | leds (d : Leds)
  | switches (d : Switches)
  | buttons (d : Buttons)
  | uart (d : Uart)
  deriving DecidableEq, Repr

namespace Device

def read (d : Device) (offset : Nat) : Byte × Device :=
  match d with
  | .leds d => (d.peek offset, .leds d)
  | .switches d => (d.peek offset, .switches d)
  | .buttons d => (d.peek offset, .buttons d)
  | .uart d =>
    let (v, d) := d.read offset
    (v, .uart d)

def peek (d : Device) (offset : Nat) : Byte :=
  match d with
  | .leds d => d.peek offset
  | .switches d => d.peek offset
  | .buttons d => d.peek offset
  | .uart d => d.peek offset

def writable : Device → Bool
  | .leds _ => true
  | .switches _ => false
  | .buttons _ => false
  | .uart _ => true

def write (d : Device) (offset : Nat) (v : Byte) : Device × List Event :=
  match d with
  | .leds d =>
    let (d, events) := d.write offset v
    (.leds d, events)
  | .switches d => (.switches d, [])
  | .buttons d => (.buttons d, [])
  | .uart d =>
    let (d, events) := d.write offset v
    (.uart d, events)

/-- Back to power-on; switches and buttons keep their positions. -/
def reset : Device → Device
  | .leds _ => .leds Leds.new
  | .switches d => .switches d
  | .buttons d => .buttons d
  | .uart _ => .uart Uart.new

end Device

end NiosBoard
