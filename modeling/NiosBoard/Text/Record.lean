import NiosBoard.Text.Escaped

/-! # Records

A value written with its name and the names of its fields, as reports show it.
-/

namespace NiosBoard.Text

def record (name : String) (fields : List (String × String)) : String :=
  name ++ " \x7b " ++ ", ".intercalate (fields.map fun (field, value) => field ++ ": " ++ value) ++
    " \x7d"

def numberRecord (name : String) (fields : List (String × Nat)) : String :=
  record name (fields.map fun (field, n) => (field, n.repr))

def quoted (t : Text) : String := String.ofList (escaped t)

end NiosBoard.Text
