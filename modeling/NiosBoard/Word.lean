import NiosBoard.Text.Numeral

/-! # Bytes and words

A word is 32 bits. In memory it is four bytes, the least significant first.
-/

namespace NiosBoard

abbrev Byte := BitVec 8

abbrev Word := BitVec 32

inductive Width where
  | byte
  | half
  | word
  deriving DecidableEq, Repr

def Width.bytes : Width → Nat
  | .byte => 1
  | .half => 2
  | .word => 4

/-- The byte at the given position, counted from the least significant end. -/
def byteAt {w : Nat} (x : BitVec w) (i : Nat) : Byte := x.extractLsb' (8 * i) 8

/-- The low `n` bytes of a value, least significant first. -/
def littleEndian {w : Nat} (n : Nat) (x : BitVec w) : List Byte := (List.range n).map (byteAt x)

/-- The word whose bytes, least significant first, are the given ones and zeros above them. -/
def Word.ofBytes : List Byte → Word
  | [] => 0
  | b :: rest => (Word.ofBytes rest <<< 8) ||| b.setWidth 32

@[simp] theorem length_littleEndian {w : Nat} (n : Nat) (x : BitVec w) :
    (littleEndian n x).length = n := by
  simp [littleEndian]

def Word.hex (w : Word) : String := "0x" ++ String.ofList (Text.hexPadded 8 w.toNat)

end NiosBoard
