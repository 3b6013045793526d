import NiosBoard.Proofs.Assembly.Layout
import NiosBoard.Proofs.Assembly.SourceLines
import NiosBoard.Proofs.Isa.Notation
import NiosBoard.Proofs.Text.StringLiteral

/-! # String data

A directive with string literals reaches memory as the bytes of these strings. The line is the same
after every pass over it: no comment is found in it, no constant, and no comma but those between the
literals.
-/

namespace NiosBoard

open Text

/-- The string directives, with what each of them puts after a string. -/
def stringDirectives : List (Text × List Byte) :=
  [("ascii".toList, []), ("asciz".toList, [0]), ("string".toList, [0])]

/-- The line of a directive with string literals. -/
def stringLine (directive : Text) (strings : List Text) : Text :=
  '.' :: (directive ++ ' ' :: Instruction.commaSeparated (strings.map stringLiteral))

/-! ### The literals of a line -/

section Literals

variable (strings : List Text)

/-- Lists of literals are read literal by literal, each with the comma and the blank behind it. -/
theorem stripCommentFrom_literals :
    stripCommentFrom .outside (Instruction.commaSeparated (strings.map stringLiteral)) =
      Instruction.commaSeparated (strings.map stringLiteral) := by
  induction strings with
  | nil => rfl
  | cons t rest ih =>
    have hLiteral := (covered_stringLiteral t).stripCommentFrom_append
    rw [after_stringLiteral] at hLiteral
    cases rest with
    | nil =>
      have hAlone := hLiteral []
      rwa [stripCommentFrom, List.append_nil] at hAlone
    | cons t' rest =>
      have hComma : ∀ u, stripCommentFrom .outside (',' :: ' ' :: u) =
          ',' :: ' ' :: stripCommentFrom .outside u :=
        stripCommentFrom_append_of_forall (t := [',', ' ']) (by simp [isQuote])
      simp only [List.map_cons, Instruction.commaSeparated_cons_cons] at ih ⊢
      rw [hLiteral, hComma, ih]

theorem substituteFrom_literals (f : Text → Option Text) :
    substituteFrom f .outside false (Instruction.commaSeparated (strings.map stringLiteral)) =
      Instruction.commaSeparated (strings.map stringLiteral) := by
  induction strings with
  | nil => rw [List.map_nil, Instruction.commaSeparated, substituteFrom]
  | cons t rest ih =>
    have hLiteral := (covered_stringLiteral t).substituteFrom_append f
    rw [after_stringLiteral] at hLiteral
    cases rest with
    | nil =>
      have hAlone := hLiteral []
      rwa [substituteFrom, List.append_nil] at hAlone
    | cons t' rest =>
      have hComma : ∀ u, substituteFrom f .outside false (',' :: ' ' :: u) =
          ',' :: ' ' :: substituteFrom f .outside false u := by
        intro u
        rw [substituteFrom, if_neg (by decide), if_neg (by decide), if_neg (by decide),
          substituteFrom, if_neg (by decide), if_neg (by decide), if_neg (by decide)]
        rfl
      simp only [List.map_cons, Instruction.commaSeparated_cons_cons] at ih ⊢
      rw [hLiteral, hComma, ih]

theorem splitOperands_literals (h : strings ≠ []) :
    splitOperands (' ' :: Instruction.commaSeparated (strings.map stringLiteral)) =
      strings.map stringLiteral := by
  apply Instruction.splitOperands_commaSeparated
  · intro piece hPiece
    obtain ⟨t, -, rfl⟩ := List.mem_map.mp hPiece
    exact isPiece_stringLiteral t
  · simpa using h

theorem getLast?_literals (h : strings ≠ []) :
    (Instruction.commaSeparated (strings.map stringLiteral)).getLast? = some '"' := by
  induction strings with
  | nil => exact absurd rfl h
  | cons t rest ih =>
    cases rest with
    | nil => exact getLast?_stringLiteral t
    | cons t' rest =>
      have hRest := ih (List.cons_ne_nil t' rest)
      simp only [List.map_cons, Instruction.commaSeparated_cons_cons] at hRest ⊢
      rw [List.getLast?_append_of_ne_nil _ (List.cons_ne_nil _ _), List.getLast?_cons,
        List.getLast?_cons, hRest]
      rfl

theorem notMem_literals {c : Char} (h : c = '\n' ∨ c = '\r') :
    c ∉ Instruction.commaSeparated (strings.map stringLiteral) := by
  induction strings with
  | nil => exact List.not_mem_nil
  | cons t rest ih =>
    cases rest with
    | nil => exact notMem_stringLiteral h t
    | cons t' rest =>
      have hComma : c ≠ ',' ∧ c ≠ ' ' := by
        rcases h with rfl | rfl <;> decide
      simp only [List.map_cons, Instruction.commaSeparated_cons_cons] at ih ⊢
      simp only [List.mem_append, List.mem_cons, not_or]
      exact ⟨notMem_stringLiteral h t, hComma.1, hComma.2, ih⟩

end Literals

/-! ### The line -/

section Line

variable {directive : Text} {terminator : List Byte} {strings : List Text}

theorem isAlpha_of_mem_directive (h : (lowercase directive, terminator) ∈ stringDirectives) :
    ∀ c ∈ directive, c.isAlpha = true := by
  have hAll : stringDirectives.all (fun entry => entry.1.all Char.isLower) = true := by
    decide +kernel
  have hLower := List.all_eq_true.mp (List.all_eq_true.mp hAll _ h)
  intro c hc
  rw [← Char.isLower_toLower_eq_isAlpha]
  exact hLower _ (List.mem_map_of_mem hc)

theorem exists_kind (h : (lowercase directive, terminator) ∈ stringDirectives) :
    ∃ terminated, DataKind.ofName? (lowercase directive) = some (.strings terminated) ∧
      Directive.ofName? directive = some (.item (.strings terminated)) ∧
      terminator = if terminated then [0] else [] := by
  unfold Directive.ofName?
  simp only [stringDirectives, List.mem_cons, Prod.mk.injEq, List.not_mem_nil, or_false] at h
  rcases h with ⟨hName, rfl⟩ | ⟨hName, rfl⟩ | ⟨hName, rfl⟩ <;> rw [hName]
  · exact ⟨false, rfl, rfl, rfl⟩
  · exact ⟨true, rfl, rfl, rfl⟩
  · exact ⟨true, rfl, rfl, rfl⟩

theorem isIdentChar_of_isAlpha {c : Char} (h : c.isAlpha = true) : isIdentChar c = true := by
  simp [isIdentChar, Char.isAlphanum, h]

theorem ne_of_isAlpha {c x : Char} (h : c.isAlpha = true) (hx : x.isAlpha = false) : c ≠ x := by
  rintro rfl
  rw [h] at hx
  cases hx

theorem takeWhile_directive {p : Char → Bool} (hAlpha : ∀ c ∈ directive, c.isAlpha = true)
    (hp : ∀ c, c.isAlpha = true → p c = true) (hBlank : p ' ' = false) (rest : Text) :
    (directive ++ ' ' :: rest).takeWhile p = directive ∧
      (directive ++ ' ' :: rest).dropWhile p = ' ' :: rest := by
  refine takeWhile_append_eq (fun c hc => hp c (hAlpha c hc)) ?_
  rintro c ⟨⟩
  exact hBlank

theorem stripComment_stringLine (hAlpha : ∀ c ∈ directive, c.isAlpha = true) :
    stripComment (stringLine directive strings) = stringLine directive strings := by
  have hPlain : ∀ c ∈ '.' :: (directive ++ [' ']), isQuote c = false ∧ c ≠ '#' ∧ c ≠ '/' := by
    simp only [List.mem_cons, List.mem_append, List.not_mem_nil, or_false]
    rintro c (rfl | hc | rfl)
    · decide
    · have hne : ∀ x : Char, x.isAlpha = false → c ≠ x := fun x => ne_of_isAlpha (hAlpha c hc)
      exact ⟨by simp [isQuote, hne '"' (by decide), hne '\'' (by decide)], hne '#' (by decide),
        hne '/' (by decide)⟩
    · decide
  have hLine : stringLine directive strings =
      '.' :: (directive ++ [' ']) ++ Instruction.commaSeparated (strings.map stringLiteral) := by
    simp [stringLine]
  rw [hLine, stripComment, stripCommentFrom_append_of_forall hPlain, stripCommentFrom_literals]

theorem trim_stringLine (h : strings ≠ []) :
    trim (stringLine directive strings) = stringLine directive strings := by
  apply trim_eq_self
  · rintro c ⟨⟩
    rfl
  · intro c hc
    rw [stringLine, ← List.cons_append, List.getLast?_append_of_ne_nil _ (List.cons_ne_nil _ _),
      List.getLast?_cons, getLast?_literals strings h] at hc
    cases hc
    rfl

theorem said_stringLine (hAlpha : ∀ c ∈ directive, c.isAlpha = true) (h : strings ≠ []) :
    said (stringLine directive strings) = stringLine directive strings := by
  rw [said, stripComment_stringLine hAlpha, trim_stringLine h]

theorem substitute_stringLine {f : Text → Option Text} (hAlpha : ∀ c ∈ directive, c.isAlpha = true)
    (hName : f ('.' :: directive) = none) :
    substitute f (stringLine directive strings) = stringLine directive strings := by
  obtain ⟨hTake, hDrop⟩ := takeWhile_directive hAlpha (fun _ => isIdentChar_of_isAlpha) (by decide)
    (Instruction.commaSeparated (strings.map stringLiteral))
  rw [substitute, stringLine, substituteFrom, if_neg (by decide), if_neg (by decide),
    if_pos (by decide), hTake, hDrop, hName, substituteFrom, if_neg (by decide),
    if_neg (by decide), if_neg (by decide), show isIdentChar ' ' = false by decide,
    substituteFrom_literals]
  rfl

theorem directive?_stringLine (hAlpha : ∀ c ∈ directive, c.isAlpha = true)
    (hNonempty : directive ≠ []) :
    Line.directive? (stringLine directive strings) =
      some (directive, ' ' :: Instruction.commaSeparated (strings.map stringLiteral)) := by
  have hBlank : ∀ c : Char, c.isAlpha = true → (!isBlank c) = true := by
    intro c hc
    rw [isBlank_of_isAlphanum (by simp [Char.isAlphanum, hc])]
    rfl
  obtain ⟨hTake, hDrop⟩ := takeWhile_directive hAlpha hBlank (by decide)
    (Instruction.commaSeparated (strings.map stringLiteral))
  show Line.mnemonic? _ = _
  unfold Line.mnemonic?
  rw [hTake, hDrop]
  split
  · exact absurd rfl hNonempty
  · rfl

theorem labels_stringLine (hAlpha : ∀ c ∈ directive, c.isAlpha = true) (h : strings ≠ []) :
    Line.labels (stringLine directive strings) = ([], stringLine directive strings) := by
  obtain ⟨hTake, hDrop⟩ := takeWhile_directive hAlpha (fun _ => isIdentChar_of_isAlpha) (by decide)
    (Instruction.commaSeparated (strings.map stringLiteral))
  have hIdentifier : identifier? (Line.skipSpaces (stringLine directive strings)) =
      some ('.' :: directive, ' ' :: Instruction.commaSeparated (strings.map stringLiteral)) := by
    rw [stringLine, Line.skipSpaces, List.dropWhile_cons_of_neg (by decide), identifier?,
      if_pos (by decide), hTake, hDrop]
  -- the name of the directive is no label, since a quote comes behind it and no colon
  have hQuote : ∃ rest, Line.skipSpaces
      (' ' :: Instruction.commaSeparated (strings.map stringLiteral)) = '"' :: rest := by
    cases strings with
    | nil => exact absurd rfl h
    | cons t rest => cases rest <;> exact ⟨_, rfl⟩
  obtain ⟨rest, hRest⟩ := hQuote
  have hLabel : Line.label? (stringLine directive strings) = none := by
    unfold Line.label?
    rw [hIdentifier]
    simp only [hRest]
    rfl
  rw [Line.labels]
  split
  · rfl
  · next hSome => cases hLabel.symm.trans hSome

end Line

/-! ### The data -/

theorem ofOperands_literals {terminated : Bool} {strings : List Text} (h : strings ≠ []) :
    DataItem.ofOperands (.strings terminated)
        (' ' :: Instruction.commaSeparated (strings.map stringLiteral)) =
      .ok (.bytes (strings.flatMap fun t =>
        DataItem.utf8 t ++ if terminated then [0] else [])) := by
  have hBytes : (strings.map stringLiteral).mapM (DataItem.stringBytes terminated) =
      .ok (strings.map fun t => DataItem.utf8 t ++ if terminated then [0] else []) := by
    rw [mapM_eq_ok_iff, List.forall₂_map_left_iff, List.forall₂_map_right_iff, List.forall₂_same]
    intro t _
    have hRead := quoted?_stringLiteral t []
    rw [List.append_nil] at hRead
    rw [DataItem.stringBytes, hRead]
    rfl
  have hNonempty : strings.map stringLiteral ≠ [] := by simpa using h
  rw [DataItem.ofOperands, splitOperands_literals strings h, DataItem.ofStrings, if_neg hNonempty,
    hBytes]
  rfl

namespace Draft

/-- A string directive adds the bytes of its strings, with the labels that wait. -/
theorem statement_stringLine {directive : Text} {terminator : List Byte} {strings : List Text}
    (hDirective : (lowercase directive, terminator) ∈ stringDirectives) (hStrings : strings ≠ [])
    (nesting line : Nat) (d : Draft) :
    d.statement nesting line (stringLine directive strings) = .ok { d with
      waiting := []
      data := d.data.push
        ⟨d.waiting, .bytes (strings.flatMap fun t => DataItem.utf8 t ++ terminator), line⟩ } := by
  have hAlpha := isAlpha_of_mem_directive hDirective
  obtain ⟨terminated, -, hKind, rfl⟩ := exists_kind hDirective
  have hNonempty : directive ≠ [] := by
    rintro rfl
    cases hKind
  have hParts : Line.directive? (stringLine directive strings) =
      some (directive, ' ' :: Instruction.commaSeparated (strings.map stringLiteral)) :=
    directive?_stringLine hAlpha hNonempty
  rw [statement, labels_stringLine hAlpha hStrings]
  simp only [trim_stringLine hStrings]
  show Draft.directive _ line (stringLine directive strings) = _
  rw [Draft.directive, hParts]
  simp only [hKind, ofOperands_literals hStrings]
  rfl

/-- A draft that holds constants and one data item. -/
def ofBytes (constants : Table Text) (contents : List Byte) (line : Nat) : Draft :=
  { new with constants := constants, data := #[⟨[], .bytes contents, line⟩] }

theorem readLine_stringLine {constants : Table Text} {directive : Text} {terminator : List Byte}
    {strings : List Text} (hDirective : (lowercase directive, terminator) ∈ stringDirectives)
    (hName : constants.get? ('.' :: directive) = none) (hStrings : strings ≠ []) (line : Nat) :
    { new with constants := constants }.readLine line (stringLine directive strings) =
      .ok (ofBytes constants (strings.flatMap fun t => DataItem.utf8 t ++ terminator) line) := by
  have hAlpha := isAlpha_of_mem_directive hDirective
  obtain ⟨terminated, -, hKind, -⟩ := exists_kind hDirective
  have hNonempty : directive ≠ [] := by
    rintro rfl
    cases hKind
  have hSaid := said_stringLine hAlpha hStrings
  have hConstant : constantOperands? (said (stringLine directive strings)) = none := by
    rw [hSaid, constantOperands?, directive?_stringLine hAlpha hNonempty]
    simp only [hKind]
    rfl
  rw [readLine_eq_statement rfl hConstant, hSaid, substituteConstants,
    substitute_stringLine hAlpha hName, statement_stringLine hDirective hStrings]
  rfl

/-- A program of one data item. Its size decides whether it fits, whatever its length. -/
theorem link_of_bytes {d : Draft} {labels : List Text} {contents : List Byte} {line : Nat}
    (hCode : d.code = #[]) (hData : d.data = #[⟨labels, .bytes contents, line⟩])
    (hFits : 4 + contents.length % 2 ^ 32 < 2 ^ 32) :
    d.link = .ok {
      image := ([0, 0, 0, 0] ++ contents).toArray
      symbols := place d.waiting (4 + BitVec.ofNat 32 contents.length) (place labels 4 d.symbols)
      globals := d.globals
      lines := #[] } := by
  have hStart : d.dataStart = 4 := by rw [dataStart, hCode]; rfl
  have hLayout : layout d.dataStart d.symbols d.data.toList =
      .ok (place labels 4 d.symbols, 4 + BitVec.ofNat 32 contents.length) := by
    rw [hStart, hData]
    refine layout_singleton ?_
    rw [DataItem.size, BitVec.toNat_ofNat]
    exact hFits
  have hInstructions : ∀ symbols, d.instructions symbols = .ok [] := by
    intro symbols
    rw [instructions, hCode]
    rfl
  have hImage : ∀ symbols, d.data.foldlM (emitVariable symbols) (codeImage []).toArray =
      .ok ([0, 0, 0, 0] ++ contents).toArray := by
    intro symbols
    rw [hData]
    exact congrArg Except.ok (List.toArray_appendList (codeImage []) contents)
  have hLines : d.code.map (·.line) = #[] := by rw [hCode, Array.map_empty]
  rw [← hLines]
  exact bind_eq_ok_iff.mpr ⟨_, hLayout, bind_eq_ok_iff.mpr ⟨[], hInstructions _,
    bind_eq_ok_iff.mpr ⟨_, hImage _, rfl⟩⟩⟩

end Draft

/-- String literals survive every pass over their line, and reach memory as the bytes of the strings
with the terminator of the directive, whatever constants were defined before. -/
theorem assemble_strings {definitions directive : Text} {terminator : List Byte}
    {strings : List Text} {d : Draft} (hWhole : WholeLines definitions)
    (hDefinitions : ∀ raw ∈ lines definitions, IsDefinition raw)
    (hAccepted : Draft.readLines 1 (lines definitions) Draft.new = .ok d)
    (hName : d.constants.get? ('.' :: directive) = none)
    (hDirective : (lowercase directive, terminator) ∈ stringDirectives) (hStrings : strings ≠ []) :
    Draft.ofSource (definitions ++ stringLine directive strings) =
        .ok (Draft.ofBytes d.constants
          (strings.flatMap fun t => DataItem.utf8 t ++ terminator) ((lines definitions).length + 1)) ∧
      (4 + (strings.flatMap fun t => DataItem.utf8 t ++ terminator).length < 2 ^ 32 →
        assemble (definitions ++ stringLine directive strings) = .ok {
          image := ([0, 0, 0, 0] ++ strings.flatMap fun t => DataItem.utf8 t ++ terminator).toArray
          symbols := Table.empty
          globals := Table.empty
          lines := #[] }) := by
  have hAlpha := isAlpha_of_mem_directive hDirective
  have hControl : ∀ c, c = '\n' ∨ c = '\r' → c ∉ stringLine directive strings := by
    intro c hc hMem
    have hLetter : c.isAlpha = false ∧ c ≠ '.' ∧ c ≠ ' ' := by
      rcases hc with rfl | rfl <;> decide
    simp only [stringLine, List.mem_cons, List.mem_append] at hMem
    rcases hMem with hDot | hMem | hBlank | hMem
    · exact hLetter.2.1 hDot
    · exact ne_of_isAlpha (hAlpha c hMem) hLetter.1 rfl
    · exact hLetter.2.2 hBlank
    · exact notMem_literals strings hc hMem
  have hLine : lines (stringLine directive strings) = [stringLine directive strings] :=
    lines_eq_singleton (List.cons_ne_nil _ _) (hControl '\n' (.inl rfl)) (hControl '\r' (.inr rfl))
  -- lines that only define constants leave nothing else behind
  have hConstants : d = { Draft.new with constants := d.constants } :=
    Draft.eq_of_readLines rfl hDefinitions hAccepted
  have hRunning : d.ended = false := by rw [hConstants]; rfl
  have hSource : Draft.ofSource (definitions ++ stringLine directive strings) =
      .ok (Draft.ofBytes d.constants (strings.flatMap fun t => DataItem.utf8 t ++ terminator)
        ((lines definitions).length + 1)) := by
    rw [Draft.ofSource, lines_append hWhole, hLine, Draft.readLines_append hAccepted hRunning,
      Draft.readLines, hConstants, Draft.readLine_stringLine hDirective hName hStrings,
      Nat.add_comm 1]
    rfl
  refine ⟨hSource, fun hFits => ?_⟩
  have hData : (Draft.ofBytes d.constants (strings.flatMap fun t => DataItem.utf8 t ++ terminator)
      ((lines definitions).length + 1)).data = #[⟨[], .bytes _, _⟩] := rfl
  rw [assemble, hSource]
  exact Draft.link_of_bytes rfl hData (by omega)

/-- Constants whose names occur in the strings below, as the name of the directive does not. -/
def greetingConstants : Text := ".equ say, 7\n# none is named .string\n.set comma, ','\n".toList

/-- Quotes, separators, comment signs and what has to be escaped. -/
def greetings : List Text :=
  ["say \"comma\", // (#)".toList, "".toList, "it's: \\\n\té\x00".toList]

theorem assemble_strings_greetings :
    WholeLines greetingConstants ∧ (∀ raw ∈ lines greetingConstants, IsDefinition raw) ∧
      (lowercase "String".toList, [0]) ∈ stringDirectives ∧ greetings ≠ [] ∧
      stringLine "String".toList greetings =
        ".String \"say \\\"comma\\\", // (#)\", \"\", \"it's: \\\\\\n\\té\\0\"".toList ∧
      (∃ d, Draft.readLines 1 (lines greetingConstants) Draft.new = .ok d ∧
        d.constants.get? "comma".toList = some "','".toList ∧
        d.constants.get? ".String".toList = none ∧
        Draft.ofSource (greetingConstants ++ stringLine "String".toList greetings) =
          .ok (Draft.ofBytes d.constants
            (greetings.flatMap fun t => DataItem.utf8 t ++ [0]) 4)) ∧
      (assemble (greetingConstants ++ stringLine "String".toList greetings)).toOption.map (·.image) =
        some ([0, 0, 0, 0] ++ greetings.flatMap fun t => DataItem.utf8 t ++ [0]).toArray := by
  have hWhole : WholeLines greetingConstants := .inr (by decide +kernel)
  have hLines : lines greetingConstants = [".equ say, 7".toList, "# none is named .string".toList,
      ".set comma, ','".toList] := by decide +kernel
  have hDefinitions : ∀ raw ∈ lines greetingConstants, IsDefinition raw := by
    rw [hLines, List.forall_mem_cons, List.forall_mem_cons, List.forall_mem_singleton]
    exact ⟨.inr (by decide +kernel), .inl (by decide +kernel), .inr (by decide +kernel)⟩
  have hAccepted : (Draft.readLines 1 (lines greetingConstants) Draft.new).toOption.map (fun d =>
      (d.constants.get? "comma".toList, d.constants.get? ".String".toList)) =
        some (some "','".toList, none) := by decide +kernel
  obtain ⟨d, hd, hConstants⟩ := exists_ok_of_map_eq hAccepted
  obtain ⟨hComma, hAbsent⟩ := Prod.mk.inj hConstants
  have hName : d.constants.get? ('.' :: "String".toList) = none := hAbsent
  have hDirective : (lowercase "String".toList, [0]) ∈ stringDirectives := by decide
  have hStrings : greetings ≠ [] := List.cons_ne_nil _ _
  obtain ⟨hSource, hAssemble⟩ :=
    assemble_strings hWhole hDefinitions hd hName hDirective hStrings
  have hCount : (lines greetingConstants).length + 1 = 4 := by rw [hLines]; rfl
  rw [hCount] at hSource
  refine ⟨hWhole, hDefinitions, hDirective, hStrings, by decide +kernel,
    ⟨d, hd, hComma, hName, hSource⟩, ?_⟩
  rw [hAssemble (by decide +kernel)]
  rfl

end NiosBoard
