import NiosBoard.Word

/-! # Register numbers and their names

`r0` to `r31`, and conventional names for ten of them. Names are case-insensitive.
-/

namespace NiosBoard

abbrev RegIndex := BitVec 5

namespace RegIndex

/-- The register that `call`, `callr` and `ret` use implicitly. -/
def returnAddress : RegIndex := 31

def stackPointer : RegIndex := 27

def aliases : List (Text × RegIndex) :=
  [("zero".toList, 0), ("at".toList, 1), ("et".toList, 24), ("bt".toList, 25), ("gp".toList, 26),
    ("sp".toList, 27), ("fp".toList, 28), ("ea".toList, 29), ("ba".toList, 30), ("ra".toList, 31)]

/-- The numbered name, without leading zeros. -/
def name (i : RegIndex) : Text := 'r' :: Text.natDecimal i.toNat

def names : List (Text × RegIndex) :=
  (List.range 32).map (fun i => (name (BitVec.ofNat 5 i), BitVec.ofNat 5 i)) ++ aliases

def ofName? (t : Text) : Option RegIndex := names.lookup (Text.lowercase t)

end RegIndex

end NiosBoard
