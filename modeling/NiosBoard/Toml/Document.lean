import NiosBoard.Toml.Scalar

/-! # TOML documents

Keys, arrays and inline tables, and the tree that headers and dotted keys build. A table is defined
once: by a header, by dotted keys, or as an inline value.
-/

namespace NiosBoard.Toml

/-! ### Keys and values -/

def isBareKeyChar (c : Char) : Bool := c.isAlphanum || c == '_' || c == '-'

def simpleKey? (t : Text) : Option (Text × Text) :=
  match singleLine? t with
  | some found => some found
  | none =>
    match t.takeWhile isBareKeyChar with
    | [] => none
    | key => some (key, t.dropWhile isBareKeyChar)

/-- How deep arrays and inline tables nest at most, and how many keys dots join at most. -/
def maxNesting : Nat := 127

def keyPath? : Nat → Text → Option (List Text × Text)
  | 0, _ => none
  | fuel + 1, t => do
    let (key, rest) ← simpleKey? (skipSpaces t)
    match skipSpaces rest with
    | '.' :: rest => do
      let (more, rest) ← keyPath? fuel rest
      some (key :: more, rest)
    | rest => some ([key], rest)

def dottedKey? : Text → Option (List Text × Text) := keyPath? maxNesting

/-- Adds an entry to an inline table, creating the tables its dotted key goes through. -/
def insertInline (v : Value) : List Text → List (Text × Value) → Option (List (Text × Value))
  | [], _ => none
  | [key], entries =>
    if (entries.lookup key).isSome then none else some (entries ++ [(key, v)])
  | key :: path, entries =>
    match entries.lookup key with
    | none => do
      let inner ← insertInline v path []
      some (entries ++ [(key, .table inner)])
    | some (.table inner) => do
      let inner ← insertInline v path inner
      some (entries.map fun e => if e.1 = key then (key, .table inner) else e)
    | some _ => none

def skipLines : Nat → Text → Text
  | 0, t => t
  | fuel + 1, t =>
    match newline? (skipComment (skipSpaces t)) with
    | some rest => skipLines fuel rest
    | none => skipComment (skipSpaces t)

def items? (item? : Text → Option (Value × Text)) : Nat → Text → Option (List Value × Text)
  | 0, _ => none
  | fuel + 1, t =>
    match skipLines fuel t with
    | ']' :: rest => some ([], rest)
    | t => do
      let (v, rest) ← item? t
      match skipLines fuel rest with
      | ',' :: rest => do
        let (vs, rest) ← items? item? fuel rest
        some (v :: vs, rest)
      | ']' :: rest => some ([v], rest)
      | _ => none

/-- The entries of an inline table up to its closing brace, after those already read; each value
is read by `item?`. -/
def entries? (item? : Text → Option (Value × Text)) :
    Nat → List (Text × Value) → Text → Option (List (Text × Value) × Text)
  | 0, _, _ => none
  | fuel + 1, before, t => do
    let (path, rest) ← dottedKey? t
    let rest ← exactly? '=' rest
    let (v, rest) ← item? (skipSpaces rest)
    let entries ← insertInline v path before
    match skipSpaces rest with
    | ',' :: rest => entries? item? fuel entries rest
    | '\x7d' :: rest => some (entries, rest)
    | _ => none

/-- A value in which arrays and inline tables nest at most `depth` deep. No scalar starts with a
bracket or a brace. -/
def nested? (fuel : Nat) : Nat → Text → Option (Value × Text)
  | 0, t => scalar? t
  | depth + 1, t =>
    match t with
    | '[' :: rest => (items? (nested? fuel depth) fuel rest).map fun (vs, rest) => (.array vs, rest)
    | '\x7b' :: rest =>
      match skipSpaces rest with
      | '\x7d' :: rest => some (.table [], rest)
      | rest => (entries? (nested? fuel depth) fuel [] rest).map fun (es, rest) => (.table es, rest)
    | t => scalar? t

def value? (t : Text) : Option (Value × Text) := nested? (t.length + 1) maxNesting t

/-! ### The tree -/

inductive Origin where
  /-- On the way to a table whose header names it. -/
  | implicit
  | dotted
  | header
  deriving DecidableEq, Repr

inductive Node where
  | value (v : Value)
  | table (origin : Origin) (entries : List (Text × Node))
  /-- An array of tables; headers add to the last one. -/
  | tables (before : List (List (Text × Node))) (last : List (Text × Node))
  deriving Repr

abbrev Entries := List (Text × Node)

def Entries.set (entries : Entries) (key : Text) (node : Node) : Entries :=
  if (entries.lookup key).isSome then entries.map fun e => if e.1 = key then (key, node) else e
  else entries ++ [(key, node)]

/-- Adds a value under a dotted key. A table made by a header cannot be extended this way. -/
def insertDotted (v : Value) : List Text → Entries → Option Entries
  | [], _ => none
  | [key], entries =>
    if (entries.lookup key).isSome then none else some (entries.set key (.value v))
  | key :: path, entries =>
    match entries.lookup key with
    | none => do
      let inner ← insertDotted v path []
      some (entries.set key (.table .dotted inner))
    | some (.table .dotted inner) => do
      let inner ← insertDotted v path inner
      some (entries.set key (.table .dotted inner))
    | some (.table .implicit inner) =>
      if path.length = 1 then none
      else do
        let inner ← insertDotted v path inner
        some (entries.set key (.table .implicit inner))
    | some (.tables before last) =>
      if path.length = 1 then none
      else do
        let last ← insertDotted v path last
        some (entries.set key (.tables before last))
    | some _ => none

/-- Changes the entries of the table that a header path leads to, making the tables on the way. -/
def descend (f : Entries → Option Entries) : List Text → Entries → Option Entries
  | [], entries => f entries
  | key :: path, entries =>
    match entries.lookup key with
    | none => do
      let inner ← descend f path []
      some (entries.set key (.table .implicit inner))
    | some (.table origin inner) => do
      let inner ← descend f path inner
      some (entries.set key (.table origin inner))
    | some (.tables before last) => do
      let last ← descend f path last
      some (entries.set key (.tables before last))
    | some (.value _) => none

/-- Opens the table of a header: a new one, or one that was only implied so far. -/
def openTable (key : Text) (entries : Entries) : Option Entries :=
  match entries.lookup key with
  | none => some (entries.set key (.table .header []))
  | some (.table .implicit inner) => some (entries.set key (.table .header inner))
  | some _ => none

def openElement (key : Text) (entries : Entries) : Option Entries :=
  match entries.lookup key with
  | none => some (entries.set key (.tables [] []))
  | some (.tables before last) => some (entries.set key (.tables (before ++ [last]) []))
  | some _ => none

/-- Reads the lines of a document; `path` leads to the table that key-value lines go to. -/
def readLines : Nat → List Text → Entries → Text → Option Entries
  | 0, _, _, _ => none
  | fuel + 1, path, root, t =>
    match skipSpaces t with
    | [] => some root
    | '[' :: '[' :: rest => do
      let (key, rest) ← dottedKey? rest
      let rest ← exactly? ']' rest
      let rest ← exactly? ']' rest
      let rest ← lineEnd? rest
      let root ← descend (openElement (key.getLastD [])) key.dropLast root
      readLines fuel key root rest
    | '[' :: rest => do
      let (key, rest) ← dottedKey? rest
      let rest ← exactly? ']' rest
      let rest ← lineEnd? rest
      let root ← descend (openTable (key.getLastD [])) key.dropLast root
      readLines fuel key root rest
    | c :: rest =>
      match lineEnd? (c :: rest) with
      | some rest => readLines fuel path root rest
      | none => do
        let (key, rest) ← dottedKey? (c :: rest)
        let rest ← exactly? '=' rest
        let (v, rest) ← value? (skipSpaces rest)
        let rest ← lineEnd? rest
        let root ← descend (insertDotted v key) path root
        readLines fuel path root rest

def parse? (t : Text) : Option Entries :=
  let t :=
    match t with
    | '\ufeff' :: rest => rest
    | t => t
  readLines (t.length + 1) [] [] t

end NiosBoard.Toml
