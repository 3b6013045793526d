import NiosBoard.Proofs.Assembly.DirectiveNames
import NiosBoard.Proofs.Assembly.Placement
import NiosBoard.Proofs.Assembly.WithoutLabel

/-! # A label in front of a line

A label that nothing else mentions adds a symbol to the program and does nothing else. A line that
defines a constant is the exception: alone it is recognised before constants are substituted, and
behind a label only after that.
-/

namespace NiosBoard

open Text

/-! ### The names in a trace -/

/-- What may be read as an expression: an operand, or the offset of a memory operand. -/
def operandExpressions (operands : Text) : List Text :=
  splitOperands operands ++
    (splitOperands operands).filterMap fun t => (memoryOperand? t).map Prod.fst

/-- The name that a label defines, or the names in the expressions of a statement. -/
def Mark.names : Mark → List Text
  | .codeLabel name => [name]
  | .dataLabel name => [name]
  | .instruction s => (operandExpressions s.operands).flatMap Expression.names
  | .item s => (splitOperands s.operands).flatMap Expression.names

theorem Mark.mem_names_of_label? {k : Mark} {name : Text} (h : k.label? = some name) :
    name ∈ k.names := by
  cases k with
  | codeLabel other =>
    cases h
    exact List.mem_singleton_self name
  | dataLabel other =>
    cases h
    exact List.mem_singleton_self name
  | instruction s => cases h
  | item s => cases h

theorem Pending.mem_operandExpressions_of_ofOperands {o : Opcode} {line : Nat} {address : Word}
    {operands t : Text} {p : Pending} (h : ofOperands o line address operands = .ok p)
    (hExpr : p.expr = some t) : t = ['0'] ∨ t ∈ operandExpressions operands := by
  rw [operandExpressions]
  rw [ofOperands_eq_ok_iff] at h
  generalize splitOperands operands = ts at h ⊢
  cases h with
  | registers | jmp | callr | ret | nextpc => cases hExpr
  | immediate | branch | br | shift | jump =>
    cases hExpr
    simp
  | memory hShape hb hSplit ha =>
    cases hExpr
    unfold offsetExpression
    split
    · exact .inl rfl
    · simp [hSplit]

theorem DataItem.eq_splitOperands_of_ofOperands {kind : DataKind} {operands : Text} {width : Width}
    {exprs : List Text} (h : ofOperands kind operands = .ok (.values width exprs)) :
    exprs = splitOperands operands := by
  rcases cases_of_ofOperands h with
    ⟨_, -, ⟨⟩⟩ | ⟨_, _, -, ⟨⟩⟩ | ⟨_, _, -, -, ⟨⟩⟩ | ⟨_, -, -, ⟨⟩⟩
  rfl

namespace Draft

variable {d d' : Draft} {r : Trace} {name raw : Text} {line nesting : Nat}

namespace Records

theorem unmentioned (h : d.Records r) (hFresh : ∀ k ∈ r.marks, name ∉ k.names) :
    d.Unmentioned name where
  code := by
    intro p hp t ht hName
    obtain ⟨s, hs, o, -, hOperands⟩ := exists_of_mem_forall₂ h.code hp
    obtain ⟨k, hk, hks⟩ := List.mem_filterMap.mp hs
    cases k with
    | instruction s =>
      cases hks
      rcases Pending.mem_operandExpressions_of_ofOperands hOperands ht with rfl | hMem
      · rw [show Expression.names ['0'] = [] by decide +kernel] at hName
        cases hName
      · exact hFresh _ hk (List.mem_flatMap.mpr ⟨t, hMem, hName⟩)
    | codeLabel _ => cases hks
    | dataLabel _ => cases hks
    | item _ => cases hks
  data := by
    intro v hv width exprs hItem t ht hName
    obtain ⟨s, hs, -, hOperands⟩ := exists_of_mem_forall₂ h.data hv
    obtain ⟨k, hk, hks⟩ := List.mem_filterMap.mp hs
    rw [hItem] at hOperands
    obtain rfl := DataItem.eq_splitOperands_of_ofOperands hOperands
    cases k with
    | item s =>
      cases hks
      exact hFresh _ hk (List.mem_flatMap.mpr ⟨t, ht, hName⟩)
    | codeLabel _ => cases hks
    | dataLabel _ => cases hks
    | instruction _ => cases hks

theorem without_eq_self (h : d.Records r) (hFresh : name ∉ labelsOf r.marks) :
    d.without name = d := by
  have hFilter : ∀ {labels : List Text}, name ∉ labels → labels.filter (· != name) = labels := by
    intro labels hLabels
    rw [List.filter_eq_self]
    rintro other hOther
    have hne : other ≠ name := fun hEq => hLabels (hEq ▸ hOther)
    simpa using hne
  have hData : name ∉ d.data.toList.flatMap (·.labels) ++ d.waiting := by
    rw [h.dataNames]
    intro hMem
    exact hFresh ((dataLabelsOf_append_codeLabelsOf_perm r.marks).subset
      (List.mem_append_left _ hMem))
  rw [List.mem_append, not_or] at hData
  have hVariable : ∀ v ∈ d.data, v.without name = v := by
    intro v hv
    rw [Variable.without, hFilter]
    exact fun hMem => hData.1 (List.mem_flatMap.mpr ⟨v, Array.mem_def.mp hv, hMem⟩)
  have hVariables : d.data.map (·.without name) = d.data :=
    (Array.map_congr_left hVariable).trans (Array.map_id d.data)
  rw [without, hVariables, hFilter hData.2, Table.erase_eq_self (h.not_mem_keys hFresh),
    hFilter (by simpa [h.defined] using hFresh)]

end Records

theorem Unmentioned.of_without (h : (d.without name).Unmentioned name) : d.Unmentioned name where
  code := h.code
  data := by
    intro v hv width exprs hItem
    refine h.data (v.without name) ?_ width exprs hItem
    rw [without, Array.toList_map]
    exact List.mem_map_of_mem hv

/-! ### Reading the line -/

theorem statement_congr {t t' : Text} (hLabels : (Line.labels t').1 = (Line.labels t).1)
    (hBody : trim (Line.labels t').2 = trim (Line.labels t).2) :
    d.statement nesting line t' = d.statement nesting line t := by
  rw [statement, statement]
  dsimp only
  rw [hLabels, hBody]

theorem statement_labelled (hName : isIdentifier name = true) {t : Text} {dL : Draft}
    (hLabel : d.defineLabel name (isDataLine (trim (Line.labels t).2)) = .ok dL) :
    d.statement nesting line (name ++ ':' :: t) = dL.statement nesting line t := by
  rw [statement, Line.labels_labelled hName]
  simp only [List.foldlM_cons, hLabel]
  rw [statement]
  rfl

theorem exists_defineLabel (hNew : name ∉ d.defined) (namesData : Bool) :
    ∃ dL, d.defineLabel name namesData = .ok dL ∧ dL.without name = d.without name ∧
      dL.macros = d.macros := by
  rw [defineLabel, if_neg (by simpa using hNew)]
  split
  · refine ⟨_, rfl, ?_, rfl⟩
    simp [without]
  · refine ⟨_, rfl, ?_, rfl⟩
    simp [without, Table.erase_insert_self]

/-- The colon of the label is no part of the name of a directive. -/
theorem constantOperands?_labelled (hName : isIdentifier name = true) (t : Text) :
    constantOperands? (name ++ ':' :: t) = none := by
  obtain ⟨c, rest, rfl, -, hRest⟩ := isIdentifier_iff.mp hName
  unfold constantOperands?
  split
  · next word operands hWord =>
    rw [if_neg]
    intro hEqu
    obtain ⟨hText, -, -, hBlank⟩ := Line.directive?_eq_some_iff.mp hWord
    have hIdent : ∀ x ∈ word, isIdentChar x = true := fun x hx =>
      Directive.isIdentChar_of_mem_names (Directive.lowercase_mem_names hEqu) hx
    have hStop : ∀ x, (':' :: t).head? = some x → isIdentChar x = false := by
      rintro x ⟨⟩
      decide
    have hLabel := takeWhile_append_eq hRest hStop
    have hDirective := takeWhile_append_eq hIdent fun x hx => isIdentChar_of_isBlank (hBlank x hx)
    have hOperands : ':' :: t = operands := by
      rw [← hLabel.2, ← hDirective.2]
      exact congrArg _ (List.cons.inj hText).2
    exact absurd (hBlank ':' (by rw [← hOperands]; rfl)) (by decide)
  · rfl

/-! ### Definitions -/

/-- A definition says the same whether constants are substituted in its value or in all of it. -/
inductive CutsAlike (f : Text → Option Text) (operands operands' : Text) : Prop
  | value {word value : Text} (h : splitOperands operands = [word, value])
      (h' : splitOperands operands' = [word, substitute f value]) (hValue : value ≠ [])
      (hSubstituted : substitute f value ≠ [])
  | same (h : operands' = operands) (hPieces : ∀ t ∈ splitOperands operands, substitute f t = t)

theorem defineConstant_of_cutsAlike {operands operands' : Text}
    (h : CutsAlike d.constants.get? operands operands') :
    d.defineConstant operands' false = d.defineConstant operands true := by
  cases h with
  | value h h' hValue hSubstituted =>
    simp only [defineConstant, h, h', if_neg hValue, if_neg hSubstituted]
    rfl
  | same h hPieces =>
    subst h
    unfold defineConstant
    split
    · next word value hSplit =>
      rw [hSplit] at hPieces
      have hValue : d.substituteConstants value = value := hPieces value (by simp)
      simp only [hValue]
      rfl
    · rfl

/-- A statement that is a definition once constants are substituted defines its constant. -/
theorem statement_definition {t operands : Text} (hLabel : Line.label? t = none)
    (h : constantOperands? (trim t) = some operands) :
    d.statement nesting line t = located line (d.defineConstant operands false) := by
  unfold constantOperands? at h
  split at h
  · next word operands' hWord =>
    split at h
    · next hEqu =>
      cases h
      obtain ⟨hText, -⟩ := Line.directive?_eq_some_iff.mp hWord
      rw [statement_eq_directive hLabel (by rw [hText]; rfl), directive, hWord]
      simp only [hEqu]
    · cases h
  · cases h

/-- What a line says behind a label is what it says alone. If it defines a constant, it does so as
well with constants substituted in all of it. -/
inductive ReadsAlike (f : Text → Option Text) (raw : Text) : Prop
  | statement (h : constantOperands? (said raw) = none)
      (hFront : (∀ c ∈ raw.takeWhile isBlank, isSpace c = true) ∨
        Line.label? (substitute f (said raw)) = none)
  | definition {operands operands' : Text} (h : constantOperands? (said raw) = some operands)
      (hLabel : Line.label? (substitute f (said raw)) = none)
      (h' : constantOperands? (trim (substitute f (said raw))) = some operands')
      (hCuts : CutsAlike f operands operands')

/-! ### Lines -/

theorem readLine_labelled (hName : isIdentifier name = true) (hRecording : d.recording = none)
    (hConstant : d.constants.get? name = none) (hNew : name ∉ d.defined)
    (hWithout : d.without name = d) (hAlike : ReadsAlike d.constants.get? raw)
    (hFresh : ∀ k ∈ (r.readLine d line raw).marks, k.label? ≠ some name) :
    d.readLine line raw = without name <$> d.readLine line (name ++ ':' :: ' ' :: raw) := by
  obtain ⟨blanks, hSaid, hBlanks, hSpaces⟩ := said_labelled hName raw
  have hLine : d.readLine line (name ++ ':' :: ' ' :: raw) =
      d.statement maxNesting line (name ++ ':' :: (blanks ++ d.substituteConstants (said raw))) := by
    rw [readLine_eq_statement hRecording (by rw [hSaid, constantOperands?_labelled hName]), hSaid,
      substituteConstants, substitute_labelled hName hConstant, substitute_blanks hBlanks]
    rfl
  obtain ⟨dL, hLabel, hForget, hMacros⟩ := exists_defineLabel hNew
    (isDataLine (trim (Line.labels (blanks ++ d.substituteConstants (said raw))).2))
  rw [hLine, statement_labelled hName hLabel]
  cases hAlike with
  | statement h hFront =>
    obtain ⟨hLabels, hBody⟩ := Line.labels_blanks hBlanks (hFront.imp_left hSpaces)
    rw [Trace.readLine_eq_statement hRecording h, ← hMacros] at hFresh
    have hForgotten := statement_without hFresh
    rw [hForget, hWithout] at hForgotten
    rw [readLine_eq_statement hRecording h, hForgotten, substituteConstants,
      statement_congr hLabels hBody]
  | definition h hStart h' hCuts =>
    obtain ⟨hLabels, hBody⟩ := Line.labels_blanks hBlanks (.inr hStart)
    rw [readLine_eq_defineConstant hRecording h, substituteConstants,
      statement_congr hLabels hBody, statement_definition hStart h', ← map_located,
      ← defineConstant_without, hForget, hWithout, defineConstant_of_cutsAlike hCuts]

/-- A label in front of one of the lines, and all lines up to some line behind it. -/
theorem readLines_labelled {before more : List Text} (hName : isIdentifier name = true)
    (hBefore : readLines 1 before new = .ok d) (hRunning : d.ended = false)
    (hRecording : d.recording = none) (hConstant : d.constants.get? name = none)
    (hAlike : ReadsAlike d.constants.get? raw)
    (hFresh : ∀ k ∈ (Trace.readLines 1 (before ++ raw :: more) new ⟨.text, []⟩).marks,
      k.label? ≠ some name) :
    readLines 1 (before ++ raw :: more) new =
      without name <$> readLines 1 (before ++ (name ++ ':' :: ' ' :: raw) :: more) new := by
  have hRecords := Records.new.readLines hBefore
  have hFront := Trace.prefix_marks_readLines_append 1 before (raw :: more) new ⟨.text, []⟩
  have hUnseen : name ∉ labelsOf (Trace.readLines 1 before new ⟨.text, []⟩).marks := by
    intro hMem
    obtain ⟨k, hk, hkName⟩ := List.mem_filterMap.mp hMem
    exact hFresh k (hFront.subset hk) hkName
  have hWithout := hRecords.without_eq_self hUnseen
  have hNew : name ∉ d.defined := by simpa [hRecords.defined] using hUnseen
  rw [Trace.readLines_append hBefore hRunning] at hFresh
  have hHere : ∀ k ∈ ((Trace.readLines 1 before new ⟨.text, []⟩).readLine d (1 + before.length)
      raw).marks, k.label? ≠ some name := fun k hk =>
    hFresh k ((Trace.prefix_marks_readLines_cons ..).subset hk)
  have hLine := readLine_labelled hName hRecording hConstant hNew hWithout hAlike hHere
  rw [readLines_append hBefore hRunning, readLines_append hBefore hRunning]
  exact readLines_cons_without hLine hFresh fun hFresh₁ => readLines_without hFresh₁

end Draft

/-! ### Sources -/

section Source

variable {source source' name raw : Text} {before after : List Text} {d : Draft}

theorem ofSource_labelled (hSource : lines source = before ++ raw :: after)
    (hSource' : lines source' = before ++ (name ++ ':' :: ' ' :: raw) :: after)
    (hName : isIdentifier name = true) (hBefore : Draft.readLines 1 before Draft.new = .ok d)
    (hRunning : d.ended = false) (hRecording : d.recording = none)
    (hConstant : d.constants.get? name = none) (hAlike : Draft.ReadsAlike d.constants.get? raw)
    (hFresh : ∀ k ∈ trace source, k.label? ≠ some name) :
    Draft.ofSource source = Draft.without name <$> Draft.ofSource source' := by
  rw [trace, hSource] at hFresh
  rw [Draft.ofSource, Draft.ofSource, hSource, hSource',
    Draft.readLines_labelled hName hBefore hRunning hRecording hConstant hAlike hFresh]
  refine map_bind_of_ok fun d₁ _ => ?_
  rw [Draft.without_recording]
  cases d₁.recording <;> rfl

theorem assemble_labelled
    (hOfSource : Draft.ofSource source = Draft.without name <$> Draft.ofSource source')
    (hFresh : ∀ k ∈ trace source, name ∉ k.names) :
    assemble source = Program.without name <$> assemble source' := by
  rw [assemble, assemble, hOfSource]
  refine map_bind_of_ok fun d₁ hd₁ => ?_
  rw [hd₁] at hOfSource
  obtain ⟨region, hRecords⟩ := Draft.records_of_ofSource hOfSource
  exact Draft.link_without (hRecords.unmentioned hFresh).of_without

theorem mem_labelsOf_labelled
    (hSource' : lines source' = before ++ (name ++ ':' :: ' ' :: raw) :: after)
    (hName : isIdentifier name = true) (hBefore : Draft.readLines 1 before Draft.new = .ok d)
    (hRunning : d.ended = false) (hRecording : d.recording = none)
    (hConstant : d.constants.get? name = none) : name ∈ labelsOf (trace source') := by
  obtain ⟨blanks, hSaid, hBlanks, -⟩ := said_labelled hName raw
  have hLabel : name ∈ (Line.labels (d.substituteConstants (said (name ++ ':' :: ' ' :: raw)))).1 := by
    rw [hSaid, Draft.substituteConstants, substitute_labelled hName hConstant,
      Line.labels_labelled hName]
    exact List.mem_cons_self
  have hStatement : Draft.constantOperands? (said (name ++ ':' :: ' ' :: raw)) = none := by
    rw [hSaid, Draft.constantOperands?_labelled hName]
  obtain ⟨k, hk, hkName⟩ := Trace.exists_mark_of_mem_statement hLabel d.macros
    (1 + before.length) Draft.maxNesting (Trace.readLines 1 before Draft.new ⟨.text, []⟩)
  rw [← Trace.readLine_eq_statement hRecording hStatement] at hk
  rw [trace, hSource', Trace.readLines_append hBefore hRunning]
  exact List.mem_filterMap.mpr
    ⟨k, (Trace.prefix_marks_readLines_cons ..).subset hk, hkName⟩

/-- A label that nothing else mentions, in front of a line that is read alike. -/
theorem added_label_only_adds_symbol (hSource : lines source = before ++ raw :: after)
    (hSource' : lines source' = before ++ (name ++ ':' :: ' ' :: raw) :: after)
    (hName : isIdentifier name = true) (hBefore : Draft.readLines 1 before Draft.new = .ok d)
    (hRunning : d.ended = false) (hRecording : d.recording = none)
    (hConstant : d.constants.get? name = none) (hFresh : ∀ k ∈ trace source, name ∉ k.names)
    (hAlike : Draft.ReadsAlike d.constants.get? raw) :
    (∀ p, assemble source = .ok p → ∃ p' a, assemble source' = .ok p' ∧ p'.image = p.image ∧
      p'.lines = p.lines ∧ p'.globals = p.globals ∧
      ∀ other, p'.symbol? other = if other = name then some a else p.symbol? other) ∧
    (∀ e, assemble source = .error e → assemble source' = .error e) ∧
    ∀ more, more <+: after →
      (fun d => (d.constants, d.macros)) <$>
          Draft.readLines 1 (before ++ (name ++ ':' :: ' ' :: raw) :: more) Draft.new =
        (fun d => (d.constants, d.macros)) <$>
          Draft.readLines 1 (before ++ raw :: more) Draft.new := by
  have hLabels : ∀ k ∈ trace source, k.label? ≠ some name := fun k hk hkName =>
    hFresh k hk (Mark.mem_names_of_label? hkName)
  have hAssemble := assemble_labelled (ofSource_labelled hSource hSource' hName hBefore hRunning
    hRecording hConstant hAlike hLabels) hFresh
  refine ⟨fun p hp => ?_, fun e he => ?_, fun more hMore => ?_⟩
  · rw [hp] at hAssemble
    cases hp' : assemble source' with
    | error e =>
      rw [hp'] at hAssemble
      cases hAssemble
    | ok p' =>
      rw [hp'] at hAssemble
      cases hAssemble
      obtain ⟨d', region, is, chunks, placed, dataEnd, hRecords, hLinks⟩ := assemble_eq_ok hp'
      have hKey : name ∈ p'.symbols.keys := (keys_perm_labelsOf hRecords hLinks).mem_iff.mpr
        (mem_labelsOf_labelled hSource' hName hBefore hRunning hRecording hConstant)
      obtain ⟨a, ha⟩ := Table.exists_get?_of_mem_keys hKey
      refine ⟨p', a, rfl, rfl, rfl, rfl, fun other => ?_⟩
      split
      · next hOther => rw [hOther, Program.symbol?, ha]
      · next hOther => exact (Table.get?_erase_of_ne _ hOther).symm
  · rw [he] at hAssemble
    cases hp' : assemble source' with
    | error e' =>
      rw [hp'] at hAssemble
      exact hAssemble.symm
    | ok p' =>
      rw [hp'] at hAssemble
      cases hAssemble
  · obtain ⟨rest, rfl⟩ := hMore
    have hMarks := Trace.prefix_marks_readLines_append 1 (before ++ raw :: more) rest
      Draft.new ⟨.text, []⟩
    rw [List.append_assoc, List.cons_append] at hMarks
    rw [trace, hSource] at hLabels
    rw [Draft.readLines_labelled hName hBefore hRunning hRecording hConstant hAlike
      fun k hk => hLabels k (hMarks.subset hk)]
    cases Draft.readLines 1 (before ++ (name ++ ':' :: ' ' :: raw) :: more) Draft.new <;> rfl

end Source

def sumSource : Text := ".equ A, 1\n.equ B, A + 1\nmovi r2, B\n".toList

def labelledSumSource : Text := ".equ A, 1\nsum: .equ B, A + 1\nmovi r2, B\n".toList

theorem added_label_only_adds_symbol_sumSource :
    ∃ p p' a, assemble sumSource = .ok p ∧ assemble labelledSumSource = .ok p' ∧
      p'.image = p.image ∧ p'.lines = p.lines ∧ p'.globals = p.globals ∧
      ∀ other, p'.symbol? other = if other = "sum".toList then some a else p.symbol? other := by
  have hFirst : (Draft.readLines 1 [".equ A, 1".toList] Draft.new).toOption.map
      (fun d => (d.ended, d.recording.isNone, d.constants.entries)) =
        some (false, true, [("A".toList, "1".toList)]) := by decide +kernel
  obtain ⟨d, hBefore, hFacts⟩ := exists_ok_of_map_eq hFirst
  obtain ⟨hRunning, hFacts⟩ := Prod.mk.inj hFacts
  obtain ⟨hRecording, hConstants⟩ := Prod.mk.inj hFacts
  have hConstants : d.constants = ⟨[("A".toList, "1".toList)]⟩ := congrArg Table.mk hConstants
  have hAccepted : (assemble sumSource).toOption.map (·.lines) = some #[3] := by decide +kernel
  obtain ⟨p, hp, -⟩ := exists_ok_of_map_eq hAccepted
  have hAlike : Draft.ReadsAlike d.constants.get? ".equ B, A + 1".toList := by
    rw [hConstants]
    have hAlone : Draft.constantOperands? (said ".equ B, A + 1".toList) =
      some " B, A + 1".toList := by decide +kernel
    have hSubstituted : Draft.constantOperands? (trim (substitute
        (⟨[("A".toList, "1".toList)]⟩ : Table Text).get? (said ".equ B, A + 1".toList))) =
      some " B, 1 + 1".toList := by decide +kernel
    have hSplit : splitOperands " B, A + 1".toList = ["B".toList, "A + 1".toList] := by
      decide +kernel
    exact .definition hAlone (by decide +kernel) hSubstituted
      (.value hSplit (by decide +kernel) (by decide +kernel) (by decide +kernel))
  have hSource : lines sumSource =
      [".equ A, 1".toList] ++ ".equ B, A + 1".toList :: ["movi r2, B".toList] := by decide +kernel
  have hSource' : lines labelledSumSource = [".equ A, 1".toList] ++
      ("sum".toList ++ ':' :: ' ' :: ".equ B, A + 1".toList) :: ["movi r2, B".toList] := by
    decide +kernel
  obtain ⟨hSame, -⟩ := added_label_only_adds_symbol hSource hSource' (by decide +kernel) hBefore
    hRunning (Option.isNone_iff_eq_none.mp hRecording) (by rw [hConstants]; decide +kernel)
    (by decide +kernel) hAlike
  obtain ⟨p', a, hSame⟩ := hSame p hp
  exact ⟨p, p', a, hp, hSame⟩

def redefinedSource : Text := ".equ X, 1\n.equ X, 2\nmovi r2, X\n".toList

/-- Behind a label, the old value takes the place of the name that is defined again. -/
theorem redefinition_behind_label_refused :
    (∀ k ∈ trace redefinedSource, "L".toList ∉ k.names) ∧
      (assemble redefinedSource).toOption.map (·.lines) = some #[3] ∧
      assemble ".equ X, 1\nL: .equ X, 2\nmovi r2, X\n".toList =
        .error ⟨2, .statement (.invalidName "1".toList), none⟩ := by
  refine ⟨by decide +kernel, by decide +kernel, ?_⟩
  have hError : (match assemble ".equ X, 1\nL: .equ X, 2\nmovi r2, X\n".toList with
      | .ok _ => none
      | .error e => some e) = some ⟨2, .statement (.invalidName "1".toList), none⟩ := by
    decide +kernel
  cases h : assemble ".equ X, 1\nL: .equ X, 2\nmovi r2, X\n".toList with
  | ok p =>
    rw [h] at hError
    cases hError
  | error e =>
    rw [h] at hError
    exact congrArg _ (Option.some.inj hError)

end NiosBoard
