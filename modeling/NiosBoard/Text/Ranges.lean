import NiosBoard.Text.Blank

/-! # Ranges of characters

A class of characters given by closed ranges of code points, ascending and apart.
-/

namespace NiosBoard

/-- The first and the last code point of each range. -/
abbrev Ranges := List (Nat × Nat)

namespace Ranges

def holds (r : Ranges) (c : Char) : Bool :=
  r.any fun (low, high) => low ≤ c.toNat && c.toNat ≤ high

end Ranges

end NiosBoard
