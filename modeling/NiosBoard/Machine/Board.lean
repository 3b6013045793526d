import NiosBoard.Word

/-! # The memory map of the board -/

namespace NiosBoard.Board

def ramStart : Word := 0x00000000

def ramSize : Nat := 0x00100000

def ledsStart : Word := 0xff200000

def switchesStart : Word := 0xff200040

def buttonsStart : Word := 0xff200050

def uartStart : Word := 0xff201000

/-- Every device occupies a single word. -/
def deviceSize : Nat := 4

/-- The initial stack pointer: one past the last byte of program RAM. -/
def stackTop : Word := ramStart + BitVec.ofNat 32 ramSize

end NiosBoard.Board
