import NiosBoard.Word

/-! # Events and listeners

Whoever watches a machine subscribes to its bus and drains what has arrived since. A listener that
went away stays on the list until the next event is published.
-/

namespace NiosBoard

inductive Event where
  /-- A register was written and now shows this value. -/
  | register (index : Nat) (value : Word)
  /-- The program counter moved to a new instruction. -/
  | pc (address : Word)
  /-- A byte of RAM was written. -/
  | memory (address : Word) (value : Byte)
  /-- New state of the LEDs. -/
  | leds (state : BitVec 4)
  /-- A byte sent over the serial line. -/
  | serial (value : Byte)
  /-- The program reached the halt word. -/
  | halted (steps : Nat)
  deriving DecidableEq, Repr

structure Listener where
  id : Nat
  live : Bool
  /-- What has arrived and was not drained yet, the newest first. -/
  received : List Event
  deriving DecidableEq, Repr

structure EventBus where
  listeners : List Listener
  /-- How many listeners ever subscribed; the next one gets this number. -/
  subscribed : Nat
  deriving DecidableEq, Repr

namespace EventBus

def new : EventBus := ⟨[], 0⟩

def subscribe (b : EventBus) : Nat × EventBus :=
  (b.subscribed, ⟨b.listeners ++ [⟨b.subscribed, true, []⟩], b.subscribed + 1⟩)

/-- Hands an event to every live listener and forgets the others. -/
def publish (b : EventBus) (e : Event) : EventBus :=
  { b with
    listeners := b.listeners.filterMap fun l =>
      if l.live then some { l with received := e :: l.received } else none }

def publishAll (b : EventBus) (es : List Event) : EventBus := es.foldl publish b

def hasListeners (b : EventBus) : Bool := !b.listeners.isEmpty

def live? (b : EventBus) (id : Nat) : Option Listener :=
  b.listeners.find? fun l => l.live && l.id == id

/-- What a listener has received and not drained, in order; `none` without a live listener of
that number. -/
def pending? (b : EventBus) (id : Nat) : Option (List Event) :=
  (b.live? id).map (·.received.reverse)

def drain (b : EventBus) (id : Nat) : EventBus :=
  { b with listeners := b.listeners.map fun l => if l.id = id then { l with received := [] } else l }

def drop (b : EventBus) (id : Nat) : EventBus :=
  { b with listeners := b.listeners.map fun l => if l.id = id then { l with live := false } else l }

end EventBus

end NiosBoard
