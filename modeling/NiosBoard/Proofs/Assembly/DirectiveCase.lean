import NiosBoard.Proofs.Assembly.DirectiveNames
import NiosBoard.Proofs.Assembly.Marks

/-! # The case of a directive

Two runs over sources that differ in the case of one directive stay in step. The drafts differ at
most in the bodies of macros, where the line may have been recorded, and the results in the
spelling that an error repeats.
-/

namespace NiosBoard

open Text

/-- The same cause, or an unknown directive in two spellings. -/
inductive Cause.SameKind : Cause → Cause → Prop
  | same (c : Cause) : SameKind c c
  | unknownDirective {name other : Text} (h : lowercase other = lowercase name) :
      SameKind (.statement (.unknownDirective name)) (.statement (.unknownDirective other))

/-- Errors of the same kind at the same line. -/
structure LineError.SameKind (e e' : LineError) : Prop where
  line : e'.line = e.line
  cause : e.cause.SameKind e'.cause
  tip : e'.tip = e.tip

theorem LineError.SameKind.refl (e : LineError) : e.SameKind e := ⟨rfl, .same _, rfl⟩

/-- Causes that are the same, placed on a line. -/
theorem Alike.located {α β : Type} {R : α → β → Prop} {x : Except Cause α} {x' : Except Cause β}
    (line : Nat) (h : Alike Eq R x x') :
    Alike LineError.SameKind R (located line x) (NiosBoard.located line x') := by
  cases h with
  | ok h => exact .ok h
  | error h =>
    subst h
    exact .error (.refl _)

/-! ### Macros -/

namespace Spellings

variable (s : Spellings)

/-- No parameter is named like the directive. -/
structure Apart (params : List Text) : Prop where
  word : '.' :: s.word ∉ params
  other : '.' :: s.other ∉ params

/-- Bodies of a macro that differ at most in the spelling of directives. -/
def Bodies (params body body' : List Text) : Prop :=
  body' = body ∨ s.Apart params ∧ List.Forall₂ s.Respells body body'

/-- No constant is named like the directive, and no parameter of the macro that is being read. -/
structure Unnamed (d : Draft) : Prop where
  word : d.constants.get? ('.' :: s.word) = none
  other : d.constants.get? ('.' :: s.other) = none
  params : ∀ r, d.recording = some r → s.Apart r.params

structure Macros (m m' : MacroDef) : Prop where
  params : m'.params = m.params
  body : s.Bodies m.params m.body m'.body

structure Recordings (r r' : Recording) : Prop where
  name : r'.name = r.name
  params : r'.params = r.params
  line : r'.line = r.line
  body : s.Bodies r.params r.body.toList r'.body.toList

def Tables (m m' : MacroTable) : Prop :=
  ∀ name, Option.Rel s.Macros (m.get? name) (m'.get? name)

/-- Drafts that differ at most in the spelling of directives in the bodies of macros. -/
inductive Drafts (d : Draft) : Draft → Prop
  | intro {macros : MacroTable} {recording : Option Recording} (hMacros : s.Tables d.macros macros)
      (hRecording : Option.Rel s.Recordings d.recording recording) :
      Drafts d { d with macros := macros, recording := recording }

variable {s} {m m' : MacroTable} {name : Text}

theorem forall₂_refl (l : List Text) : List.Forall₂ s.Respells l l := by
  induction l with
  | nil => exact .nil
  | cons t l ih => exact .cons (.same t) ih

theorem Bodies.forall₂ {params body body' : List Text} (h : s.Bodies params body body') :
    List.Forall₂ s.Respells body body' := by
  rcases h with rfl | ⟨-, h⟩
  · exact forall₂_refl body'
  · exact h

theorem Bodies.concat {params body body' : List Text} {t u : Text} (h : s.Bodies params body body')
    (hText : s.Respells t u) (hApart : u = t ∨ s.Apart params) :
    s.Bodies params (body ++ [t]) (body' ++ [u]) := by
  rcases hApart with rfl | hApart
  · rcases h with rfl | ⟨hApart, h⟩
    · exact .inl rfl
    · exact .inr ⟨hApart, List.rel_append h (.cons (.same u) .nil)⟩
  · exact .inr ⟨hApart, List.rel_append h.forall₂ (.cons hText .nil)⟩

theorem optionRel_refl {α : Type} {R : α → α → Prop} (h : ∀ a, R a a) (o : Option α) :
    Option.Rel R o o := by
  cases o with
  | none => exact .none
  | some a => exact .some (h a)

theorem Tables.refl (m : MacroTable) : s.Tables m m := fun name =>
  optionRel_refl (fun _ => ⟨rfl, .inl rfl⟩) (m.get? name)

theorem Drafts.refl (d : Draft) : s.Drafts d d :=
  .intro (.refl d.macros) (optionRel_refl (fun _ => ⟨rfl, rfl, rfl, .inl rfl⟩) d.recording)

theorem Tables.contains_eq (h : s.Tables m m') (name : Text) : m'.contains name = m.contains name := by
  have hRel := h name
  rw [MacroTable.contains, MacroTable.contains]
  generalize m.get? name = found, m'.get? name = found' at hRel ⊢
  cases hRel <;> rfl

theorem lookup_zip_eq_none {params operands : List Text} (h : name ∉ params) :
    (params.zip operands).lookup name = none := by
  rw [List.lookup_eq_none_iff]
  rintro ⟨param, operand⟩ hMem
  have hParam : param ∈ params := (List.of_mem_zip hMem).1
  have hne : name ≠ param := fun hEq => h (hEq ▸ hParam)
  simpa using hne

theorem Tables.expand (h : s.Tables m m') (name args : Text) :
    Alike Eq (List.Forall₂ s.Respells) (m.expand name args) (m'.expand name args) := by
  have hRel := h name
  rw [MacroTable.expand, MacroTable.expand]
  generalize m.get? name = found, m'.get? name = found' at hRel ⊢
  cases hRel with
  | none => exact .error rfl
  | some hMacro =>
    simp only [hMacro.params]
    split
    · exact .error rfl
    refine .ok ?_
    rcases hMacro.body with hBody | ⟨hApart, hBody⟩
    · rw [hBody]
      exact forall₂_refl _
    · rw [List.forall₂_map_left_iff, List.forall₂_map_right_iff]
      exact hBody.imp fun t u hText =>
        hText.substitute (lookup_zip_eq_none hApart.word) (lookup_zip_eq_none hApart.other)

theorem Tables.define (h : s.Tables m m') {r r' : Recording} (hr : s.Recordings r r') :
    Alike Eq s.Tables (m.define r.name r.params r.body.toList)
      (m'.define r'.name r'.params r'.body.toList) := by
  rw [MacroTable.define, MacroTable.define, hr.name, hr.params, h.contains_eq]
  split
  · exact .error rfl
  split
  · exact .error rfl
  refine .ok fun name => ?_
  rw [MacroTable.get?, MacroTable.get?, Table.get?_insert, Table.get?_insert]
  split
  · exact .some ⟨rfl, hr.body⟩
  · exact h name

end Spellings

namespace Draft

variable {s : Spellings} {d d' : Draft} {line nesting : Nat} {t u raw : Text}

/-! ### Statements -/

theorem defineLabel_alike (h : s.Drafts d d') (name : Text) (namesData : Bool) :
    Alike Eq s.Drafts (d.defineLabel name namesData) (d'.defineLabel name namesData) := by
  cases h with
  | intro hMacros hRecording =>
    rw [defineLabel, defineLabel]
    dsimp only
    split
    · exact .error rfl
    split
    · exact .ok (.intro hMacros hRecording)
    · exact .ok (.intro hMacros hRecording)

theorem defineConstant_alike (h : s.Drafts d d') (operands : Text) (substituted : Bool) :
    Alike Eq s.Drafts (d.defineConstant operands substituted)
      (d'.defineConstant operands substituted) := by
  cases h with
  | intro hMacros hRecording =>
    rw [defineConstant, defineConstant]
    split
    · split
      · exact .error rfl
      split
      · exact .error rfl
      · exact .ok (.intro hMacros hRecording)
    · exact .error rfl

theorem declareGlobals_alike (h : s.Drafts d d') (line : Nat) (names : List Text) :
    Alike Eq s.Drafts (d.declareGlobals line names) (d'.declareGlobals line names) := by
  refine Alike.foldlM ?_ names h
  rintro d d' name ⟨hMacros, hRecording⟩
  dsimp only
  split
  · exact .ok (.intro hMacros hRecording)
  · exact .error rfl

/-- A directive is known by the lower case of its name; only a macro header is read in one case. -/
theorem directive_alike (h : s.Drafts d d') (line : Nat) {name other operands : Text}
    (hName : Line.directive? t = some (name, operands))
    (hOther : Line.directive? u = some (other, operands)) (hSame : lowercase other = lowercase name)
    (hHeader : Line.macroHeader? u = Line.macroHeader? t ∨
      Directive.ofName? name ≠ some .openMacro) :
    Alike LineError.SameKind s.Drafts (d.directive line t) (d'.directive line u) := by
  rw [directive, directive, hName, hOther]
  dsimp only
  rw [Directive.ofName?_congr hSame]
  cases hKind : Directive.ofName? name with
  | none => exact .error ⟨rfl, hSame ▸ .same _, rfl⟩
  | some k =>
    cases k with
    | text =>
      obtain ⟨hMacros, hRecording⟩ := h
      exact .ok (.intro hMacros hRecording)
    | data =>
      obtain ⟨hMacros, hRecording⟩ := h
      exact .ok (.intro hMacros hRecording)
    | equ => exact (defineConstant_alike h operands false).located line
    | global => exact (declareGlobals_alike h line _).located line
    | openMacro =>
      rw [hHeader.resolve_right (not_not_intro hKind)]
      dsimp only
      split
      · exact .error (.refl _)
      · obtain ⟨hMacros, hRecording⟩ := h
        exact .ok (.intro hMacros (.some ⟨rfl, rfl, rfl, .inl rfl⟩))
    | closeMacro => exact .error ⟨rfl, .unknownDirective hSame, rfl⟩
    | finish =>
      obtain ⟨hMacros, hRecording⟩ := h
      exact .ok (.intro hMacros hRecording)
    | item kind =>
      obtain ⟨hMacros, hRecording⟩ := h
      refine (Alike.refl (R := Eq) .refl (fun _ => rfl) _).bind ?_
      rintro item _ - rfl
      exact .ok (.intro hMacros hRecording)

theorem directive_alike_self (h : s.Drafts d d') (line : Nat) (t : Text) :
    Alike LineError.SameKind s.Drafts (d.directive line t) (d'.directive line t) := by
  cases hDirective : Line.directive? t with
  | none =>
    rw [directive, directive, hDirective]
    exact .error (.refl _)
  | some found => exact directive_alike h line hDirective hDirective rfl (.inl rfl)

theorem appendInstruction_alike (h : s.Drafts d d') (line : Nat) (name operands : Text) :
    Alike LineError.SameKind s.Drafts (d.appendInstruction line name operands)
      (d'.appendInstruction line name operands) := by
  obtain ⟨hMacros, hRecording⟩ := h
  rw [appendInstruction, appendInstruction]
  cases Opcode.ofMnemonic? name with
  | none => exact .error (.refl _)
  | some o =>
    refine (Alike.refl (R := Eq) .refl (fun _ => rfl) _).bind ?_
    rintro p _ - rfl
    exact .ok (.intro hMacros hRecording)

/-- One statement after another. -/
theorem foldlM_statement_alike
    (hStatement : ∀ {d d' : Draft} {r : Trace} {t u : Text}, s.Drafts d d' → s.Respells t u →
      (∀ k ∈ (r.statement d.macros line nesting t).marks, k.label? ≠ some ('.' :: s.word)) →
        Alike LineError.SameKind s.Drafts (d.statement nesting line t) (d'.statement nesting line u))
    {ts us : List Text} {r : Trace} (h : s.Drafts d d') (hTexts : List.Forall₂ s.Respells ts us)
    (hLabels : ∀ k ∈ (ts.foldl (Trace.statement d.macros line nesting) r).marks,
      k.label? ≠ some ('.' :: s.word)) :
    Alike LineError.SameKind s.Drafts (ts.foldlM (fun d t => statement nesting line t d) d)
      (us.foldlM (fun d t => statement nesting line t d) d') := by
  induction hTexts generalizing d d' r with
  | nil => exact .ok h
  | @cons t u ts us hText hTexts ih =>
    rw [List.foldl_cons] at hLabels
    have hHere : ∀ k ∈ (r.statement d.macros line nesting t).marks,
        k.label? ≠ some ('.' :: s.word) := fun k hk =>
      hLabels k ((Trace.prefix_marks_foldl (Trace.prefix_marks_statement d.macros line nesting)
        ts _).subset hk)
    rw [List.foldlM_cons, List.foldlM_cons]
    refine (hStatement h hText hHere).bind fun d₁ d₁' hd₁ h₁ =>
      ih (r := r.statement d.macros line nesting t) h₁ ?_
    rw [macros_of_statement hd₁]
    exact hLabels

theorem statement_directive_alike {operands : Text} {r : Trace} (h : s.Drafts d d')
    (hBlank : ∀ c, operands.head? = some c → isBlank c = true)
    (hLabels : ∀ k ∈ (r.statement d.macros line nesting ('.' :: (s.word ++ operands))).marks,
      k.label? ≠ some ('.' :: s.word)) :
    Alike LineError.SameKind s.Drafts (d.statement nesting line ('.' :: (s.word ++ operands)))
      (d'.statement nesting line ('.' :: (s.other ++ operands))) := by
  have hColon : ∀ rest, Line.skipSpaces operands ≠ ':' :: rest := by
    intro rest hColon
    obtain ⟨k, hk, hName⟩ := Trace.exists_mark_of_mem_statement
      (Directive.mem_labels_line s.known hBlank hColon) d.macros line nesting r
    exact hLabels k hk hName
  have hTrimmed := isBlank_head?_trimEnd hBlank
  have hHeader : Directive.ofName? s.word ≠ some .openMacro := fun hMacro =>
    s.notMacro (Directive.lowercase_eq_macro hMacro)
  have hTrim := Directive.trim_line s.known operands
  have hTrim' := Directive.trim_line s.known_other operands
  rw [statement_eq_directive (Directive.label?_line_eq_none s.known hBlank hColon)
      (by rw [hTrim]; rfl),
    statement_eq_directive (Directive.label?_line_eq_none s.known_other hBlank hColon)
      (by rw [hTrim']; rfl), hTrim, hTrim']
  exact directive_alike h line (Directive.directive?_line s.known hTrimmed)
    (Directive.directive?_line s.known_other hTrimmed) s.same (.inr hHeader)

/-- Induction on the depth of macro calls. A line that starts with the directive has no label in
front; any other is the same in both runs, but may call a macro whose bodies differ. -/
theorem statement_alike {r : Trace} (h : s.Drafts d d') (hText : s.Respells t u)
    (hLabels : ∀ k ∈ (r.statement d.macros line nesting t).marks,
      k.label? ≠ some ('.' :: s.word)) :
    Alike LineError.SameKind s.Drafts (d.statement nesting line t) (d'.statement nesting line u) := by
  induction nesting using Nat.strongRecOn generalizing d d' r t u with
  | ind nesting ih =>
    cases hText with
    | directive hBlank => exact statement_directive_alike h hBlank hLabels
    | same =>
      rw [statement, statement]
      dsimp only
      refine Alike.bind ((Alike.foldlM (fun d d' name hd => defineLabel_alike hd name _) _ h).located
        line) fun d₁ d₁' hd₁ h₁ => ?_
      have hMacros : d₁.macros = d.macros := (keeps_of_labelled hd₁).macros
      split
      · exact .ok h₁
      next hBody =>
      split
      · exact directive_alike_self h₁ line _
      next hDot =>
      split
      · exact .error (.refl _)
      next word operands hWord =>
      cases h₁ with
      | @intro macros recording hTables hRecording =>
        dsimp only
        split
        · exact .error (.refl _)
        rw [hTables.contains_eq]
        split
        · next hMacro =>
          split
          · exact .error (.refl _)
          next n =>
          have hExpand := hTables.expand word operands
          rw [Trace.statement] at hLabels
          generalize hCalls : d₁.macros.expand word operands = calls,
            macros.expand word operands = calls' at hExpand ⊢
          rw [hMacros] at hMacro hCalls
          cases hExpand with
          | error hSame =>
            subst hSame
            exact .error (.refl _)
          | ok hTexts =>
            simp only [if_neg hDot, hWord, hMacro, hCalls, if_true] at hLabels
            rw [← hMacros] at hLabels
            exact foldlM_statement_alike
              (fun h hText hLabels => ih n (Nat.lt_succ_self n) h hText hLabels)
              (.intro hTables hRecording) hTexts hLabels
        · exact appendInstruction_alike (.intro hTables hRecording) line word operands

/-! ### Lines -/

theorem closeRecording_alike (h : s.Drafts d d') {r r' : Recording} (hr : s.Recordings r r') :
    Alike LineError.SameKind s.Drafts (d.closeRecording r) (d'.closeRecording r') := by
  cases h with
  | @intro macros recording hTables hRecording =>
    have hDefine := hTables.define hr
    rw [closeRecording, closeRecording, hr.line]
    dsimp only
    generalize d.macros.define r.name r.params r.body.toList = defined,
      macros.define r'.name r'.params r'.body.toList = defined' at hDefine ⊢
    cases hDefine with
    | ok hTables => exact .ok (.intro hTables .none)
    | error hSame =>
      subst hSame
      exact .error (.refl _)

theorem recording_rel (h : s.Drafts d d') : Option.Rel s.Recordings d.recording d'.recording := by
  obtain ⟨-, hRecording⟩ := h
  exact hRecording

theorem substituteConstants_eq (h : s.Drafts d d') (t : Text) :
    d'.substituteConstants t = d.substituteConstants t := by
  cases h
  rfl

/-- A line that is the same in both sources. -/
theorem readLine_alike {r : Trace} (h : s.Drafts d d')
    (hLabels : ∀ k ∈ (r.readLine d line raw).marks, k.label? ≠ some ('.' :: s.word)) :
    Alike LineError.SameKind s.Drafts (d.readLine line raw) (d'.readLine line raw) := by
  have hRel := recording_rel h
  generalize hFirst : d.recording = recording, hSecond : d'.recording = recording' at hRel
  cases hRel with
  | none =>
    cases hConstant : constantOperands? (said raw) with
    | some operands =>
      rw [readLine_eq_defineConstant hFirst hConstant, readLine_eq_defineConstant hSecond hConstant]
      exact (defineConstant_alike h operands true).located line
    | none =>
      rw [Trace.readLine_eq_statement hFirst hConstant] at hLabels
      rw [readLine_eq_statement hFirst hConstant, readLine_eq_statement hSecond hConstant,
        substituteConstants_eq h]
      exact statement_alike h (.same _) hLabels
  | some hr =>
    rw [readLine_eq_record hFirst, readLine_eq_record hSecond, substituteConstants_eq h]
    split
    · exact closeRecording_alike h hr
    · obtain ⟨hTables, -⟩ := h
      refine .ok (.intro hTables (.some ⟨hr.name, hr.params, hr.line, ?_⟩))
      rw [Array.toList_push, Array.toList_push]
      exact hr.body.concat (.same _) (.inl rfl)

/-- The line with the directive, read with the same draft in both runs. -/
theorem readLine_respelled (line : Nat) {r : Trace} {raw' operands : Text}
    (hSaid : said raw = '.' :: (s.word ++ operands))
    (hSaid' : said raw' = '.' :: (s.other ++ operands))
    (hBlank : ∀ c, operands.head? = some c → isBlank c = true) (hUnnamed : s.Unnamed d)
    (hCloses : d.recording.isSome = true → Line.closesMacro (said raw') = Line.closesMacro (said raw))
    (hLabels : ∀ k ∈ (r.readLine d line raw).marks, k.label? ≠ some ('.' :: s.word)) :
    Alike LineError.SameKind s.Drafts (d.readLine line raw) (d.readLine line raw') := by
  have hText : s.Respells (said raw) (said raw') := by
    rw [hSaid, hSaid']
    exact .directive hBlank
  have hSubstituted := hText.substitute hUnnamed.word hUnnamed.other
  cases hRecording : d.recording with
  | some recording =>
    rw [readLine_eq_record hRecording, readLine_eq_record hRecording,
      hCloses (by rw [hRecording]; rfl)]
    split
    · exact .refl .refl .refl _
    · refine .ok (.intro (d := { d with recording := _ }) (.refl d.macros)
        (.some ⟨rfl, rfl, rfl, ?_⟩))
      rw [Array.toList_push, Array.toList_push]
      exact Spellings.Bodies.concat (.inl rfl) hSubstituted
        (.inr (hUnnamed.params recording hRecording))
  | none =>
    have hOperands : constantOperands? (said raw') = constantOperands? (said raw) := by
      rw [hSaid, hSaid', constantOperands?, constantOperands?,
        Directive.directive?_line s.known hBlank, Directive.directive?_line s.known_other hBlank]
      dsimp only
      rw [Directive.ofName?_congr s.same]
    cases hConstant : constantOperands? (said raw) with
    | some constant =>
      rw [readLine_eq_defineConstant hRecording hConstant,
        readLine_eq_defineConstant hRecording (hOperands.trans hConstant)]
      exact .refl .refl .refl _
    | none =>
      rw [Trace.readLine_eq_statement hRecording hConstant] at hLabels
      rw [readLine_eq_statement hRecording hConstant,
        readLine_eq_statement hRecording (hOperands.trans hConstant)]
      exact statement_alike (.refl d) hSubstituted hLabels

/-- Lines in step after their first ones, if these are in step. -/
theorem readLines_cons_alike {raws : List Text} {raw' : Text} {r : Trace}
    (hLine : Alike LineError.SameKind s.Drafts (d.readLine line raw) (d'.readLine line raw'))
    (hLabels : ∀ k ∈ (Trace.readLines line (raw :: raws) d r).marks, k.label? ≠ some ('.' :: s.word))
    (hRest : ∀ {d₁ d₁' : Draft}, s.Drafts d₁ d₁' →
      (∀ k ∈ (Trace.readLines (line + 1) raws d₁ (r.readLine d line raw)).marks,
        k.label? ≠ some ('.' :: s.word)) →
      Alike LineError.SameKind s.Drafts (readLines (line + 1) raws d₁)
        (readLines (line + 1) raws d₁')) :
    Alike LineError.SameKind s.Drafts (readLines line (raw :: raws) d)
      (readLines line (raw' :: raws) d') := by
  rw [readLines, readLines]
  refine hLine.bind fun d₁ d₁' hd₁ h₁ => ?_
  have hEnded : d₁'.ended = d₁.ended := by
    cases h₁
    rfl
  rw [hEnded]
  split
  · exact .ok h₁
  · next hRunning =>
    rw [Trace.readLines_cons hd₁ (Bool.eq_false_iff.mpr hRunning)] at hLabels
    exact hRest h₁ hLabels

theorem readLines_alike {raws : List Text} {r : Trace} (h : s.Drafts d d')
    (hLabels : ∀ k ∈ (Trace.readLines line raws d r).marks, k.label? ≠ some ('.' :: s.word)) :
    Alike LineError.SameKind s.Drafts (readLines line raws d) (readLines line raws d') := by
  induction raws generalizing line d d' r with
  | nil => exact .ok h
  | cons raw raws ih =>
    have hHere : ∀ k ∈ (r.readLine d line raw).marks, k.label? ≠ some ('.' :: s.word) := fun k hk =>
      hLabels k ((Trace.prefix_marks_readLines_cons line raw raws d r).subset hk)
    exact readLines_cons_alike (readLine_alike h hHere) hLabels fun h₁ hLabels₁ => ih h₁ hLabels₁

/-- Induction on the lines in front of the one with the directive, which leave the same draft in both
runs, end both, or are refused in both. -/
theorem readLines_respelled {before after : List Text} {raw' operands : Text} {r : Trace}
    (hSaid : said raw = '.' :: (s.word ++ operands))
    (hSaid' : said raw' = '.' :: (s.other ++ operands))
    (hBlank : ∀ c, operands.head? = some c → isBlank c = true)
    (hUnnamed : ∀ d', readLines line before d = .ok d' → s.Unnamed d')
    (hCloses : ∀ d', readLines line before d = .ok d' → d'.recording.isSome = true →
      Line.closesMacro (said raw') = Line.closesMacro (said raw))
    (hLabels : ∀ k ∈ (Trace.readLines line (before ++ raw :: after) d r).marks,
      k.label? ≠ some ('.' :: s.word)) :
    Alike LineError.SameKind s.Drafts (readLines line (before ++ raw :: after) d)
      (readLines line (before ++ raw' :: after) d) := by
  induction before generalizing line d r with
  | nil =>
    have hHere : ∀ k ∈ (r.readLine d line raw).marks, k.label? ≠ some ('.' :: s.word) := fun k hk =>
      hLabels k ((Trace.prefix_marks_readLines_cons line raw after d r).subset hk)
    have hLine := readLine_respelled line hSaid hSaid' hBlank (hUnnamed d rfl)
      (hCloses d rfl) hHere
    exact readLines_cons_alike hLine hLabels fun h₁ hLabels₁ => readLines_alike h₁ hLabels₁
  | cons front before ih =>
    rw [List.cons_append, List.cons_append, readLines, readLines]
    refine (Alike.refl (R := Eq) .refl (fun _ => rfl) _).bind ?_
    rintro d₁ _ hd₁ rfl
    split
    · exact .ok (.refl d₁)
    · next hEnded =>
      have hRunning : d₁.ended = false := Bool.eq_false_iff.mpr hEnded
      have hFront : ∀ d', readLines (line + 1) before d₁ = .ok d' →
          readLines line (front :: before) d = .ok d' := fun d' hd' =>
        (readLines_cons hd₁ hRunning before).trans hd'
      rw [List.cons_append, Trace.readLines_cons hd₁ hRunning] at hLabels
      exact ih (fun d' hd' => hUnnamed d' (hFront d' hd'))
        (fun d' hd' => hCloses d' (hFront d' hd')) hLabels

theorem link_eq (h : s.Drafts d d') : d'.link = d.link := by
  cases h
  rfl

end Draft

/-! ### Sources -/

section Source

variable {s : Spellings} {source source' blanks rest : Text} {before after : List Text}

theorem assemble_alike {raw raw' operands : Text} (hSource : lines source = before ++ raw :: after)
    (hSource' : lines source' = before ++ raw' :: after)
    (hSaid : said raw = '.' :: (s.word ++ operands))
    (hSaid' : said raw' = '.' :: (s.other ++ operands))
    (hBlank : ∀ c, operands.head? = some c → isBlank c = true)
    (hUnnamed : ∀ d, Draft.readLines 1 before Draft.new = .ok d → s.Unnamed d)
    (hCloses : ∀ d, Draft.readLines 1 before Draft.new = .ok d → d.recording.isSome = true →
      Line.closesMacro (said raw') = Line.closesMacro (said raw))
    (hLabels : ∀ k ∈ trace source, k.label? ≠ some ('.' :: s.word)) :
    Alike LineError.SameKind Eq (assemble source) (assemble source') := by
  rw [trace, hSource] at hLabels
  have hLines := Draft.readLines_respelled hSaid hSaid' hBlank hUnnamed hCloses hLabels
  rw [assemble, assemble, Draft.ofSource, Draft.ofSource, hSource, hSource', bind_assoc, bind_assoc]
  refine hLines.bind fun d d' _ h => ?_
  have hRel := Draft.recording_rel h
  generalize d.recording = recording, d'.recording = recording' at hRel
  cases hRel with
  | none =>
    show Alike _ Eq d.link d'.link
    rw [Draft.link_eq h]
    exact .refl .refl (fun _ => rfl) _
  | some hr => exact .error ⟨hr.line, by rw [hr.name]; exact .same _, rfl⟩

/-- A directive in another case. -/
theorem directive_case_insensitive
    (hSource : lines source = before ++ (blanks ++ '.' :: (s.word ++ rest)) :: after)
    (hSource' : lines source' = before ++ (blanks ++ '.' :: (s.other ++ rest)) :: after)
    (hBlanks : ∀ c ∈ blanks, isBlank c = true)
    (hDirective : (Line.directive? (said (blanks ++ '.' :: (s.word ++ rest)))).map Prod.fst =
      some s.word)
    (hUnnamed : ∀ d, Draft.readLines 1 before Draft.new = .ok d → s.Unnamed d)
    (hCloses : ∀ d, Draft.readLines 1 before Draft.new = .ok d → d.recording.isSome = true →
      Line.closesMacro (said (blanks ++ '.' :: (s.other ++ rest))) =
        Line.closesMacro (said (blanks ++ '.' :: (s.word ++ rest))))
    (hLabels : '.' :: s.word ∉ labelsOf (trace source)) :
    (∀ p, assemble source = .ok p → assemble source' = .ok p) ∧
      ∀ e, assemble source = .error e → ∃ e', assemble source' = .error e' ∧ e.SameKind e' := by
  have hSaid := Directive.said_line hBlanks s.known rest
  have hSaid' := Directive.said_line hBlanks s.known_other rest
  have hBlank : ∀ c, (trimEnd (stripComment rest)).head? = some c → isBlank c = true := by
    obtain ⟨⟨word, operands⟩, hFound, hWord⟩ := Option.map_eq_some_iff.mp hDirective
    obtain rfl : word = s.word := hWord
    obtain ⟨hText, -, -, hBlank⟩ := Line.directive?_eq_some_iff.mp hFound
    rw [hSaid] at hText
    rwa [List.append_cancel_left (List.cons.inj hText).2]
  have hNoLabel : ∀ k ∈ trace source, k.label? ≠ some ('.' :: s.word) := fun k hk hName =>
    hLabels (List.mem_filterMap.mpr ⟨k, hk, hName⟩)
  have hAlike := assemble_alike hSource hSource' hSaid hSaid' hBlank hUnnamed hCloses hNoLabel
  generalize assemble source = result, assemble source' = result' at hAlike
  cases hAlike with
  | ok hSame =>
    subst hSame
    exact ⟨fun p hp => hp, fun e he => nomatch he⟩
  | error hSame =>
    refine ⟨fun p hp => (nomatch hp), fun e he => ?_⟩
    cases he
    exact ⟨_, rfl, hSame⟩

end Source

/-- A macro with a directive in its body. -/
def pairSource : Text := ".macro pair a\n  .word a, a\n.endm\npair 3\n".toList

def wordSpellings : Spellings where
  word := "word".toList
  other := "Word".toList
  known := by decide +kernel
  same := by decide +kernel
  notMacro := by decide +kernel

theorem directive_case_insensitive_pairSource :
    ∃ p, assemble pairSource = .ok p ∧
      assemble ".macro pair a\n  .Word a, a\n.endm\npair 3\n".toList = .ok p := by
  have hFront : (Draft.readLines 1 [".macro pair a".toList] Draft.new).toOption.map
      (fun d => (d.constants.entries, d.recording.map (·.params))) = some ([], some ["a".toList]) := by
    decide +kernel
  have hUnnamed : ∀ d, Draft.readLines 1 [".macro pair a".toList] Draft.new = .ok d →
      wordSpellings.Unnamed d := by
    intro d hd
    rw [hd] at hFront
    obtain ⟨hConstants, hParams⟩ := Prod.mk.inj (Option.some.inj hFront)
    have hConstants : d.constants = ⟨[]⟩ := congrArg Table.mk hConstants
    refine ⟨by rw [hConstants]; rfl, by rw [hConstants]; rfl, fun r hr => ?_⟩
    rw [hr] at hParams
    have hParams : r.params = ["a".toList] := Option.some.inj hParams
    rw [hParams]
    exact ⟨by decide +kernel, by decide +kernel⟩
  have hAccepted : (assemble pairSource).toOption.map (·.image.size) = some 12 := by decide +kernel
  obtain ⟨p, hp, -⟩ := exists_ok_of_map_eq hAccepted
  have hSource : lines pairSource = [".macro pair a".toList] ++
      ("  ".toList ++ '.' :: (wordSpellings.word ++ " a, a".toList)) ::
        [".endm".toList, "pair 3".toList] := by decide +kernel
  have hSource' : lines ".macro pair a\n  .Word a, a\n.endm\npair 3\n".toList =
      [".macro pair a".toList] ++ ("  ".toList ++ '.' :: (wordSpellings.other ++ " a, a".toList)) ::
        [".endm".toList, "pair 3".toList] := by decide +kernel
  obtain ⟨hSame, -⟩ := directive_case_insensitive hSource hSource'
    (List.all_eq_true.mp (by decide +kernel)) (by decide +kernel) hUnnamed
    (fun _ _ _ => by decide +kernel) (by decide +kernel)
  exact ⟨p, hp, hSame p hp⟩

/-- A macro whose parameter is named like a directive. -/
def namedSource : Text := ".macro as .word\n.word 1\n.endm\nas .byte\n".toList

/-- Parameters and labels may be named like directives, and their case counts. -/
theorem names_like_directives_keep_case :
    (Draft.ofSource namedSource).toOption.map (·.constants.entries) = some [] ∧
      (assemble namedSource).toOption.map (·.image) = some #[0, 0, 0, 0, 1] ∧
      (assemble ".macro as .word\n.WORD 1\n.endm\nas .byte\n".toList).toOption.map (·.image) =
        some #[0, 0, 0, 0, 1, 0, 0, 0] ∧
      (assemble ".word : nop\n".toList).toOption.map (·.symbols.entries) =
        some [(".word".toList, 0)] ∧
      (assemble ".WORD : nop\n".toList).toOption.map (·.symbols.entries) =
        some [(".WORD".toList, 0)] := by
  refine ⟨?_, ?_, ?_, ?_, ?_⟩ <;> decide +kernel

end NiosBoard
