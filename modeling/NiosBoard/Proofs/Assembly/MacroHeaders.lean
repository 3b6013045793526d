import NiosBoard.Proofs.Assembly.DirectiveNames
import NiosBoard.Proofs.Assembly.SourceLines

/-! # Macro headers

The name of a macro and its parameters stand behind `.macro`, spaces or a comma between them. The
list of parameters goes on as long as an identifier follows a separator, and nobody looks at what is
left of the line after that.
-/

namespace NiosBoard

open Text

namespace Line

/-- A comma with spaces around it, or spaces alone. -/
inductive IsSeparator : Text → Prop
  | comma {l r : Text} (hl : ∀ c ∈ l, isSpace c = true) (hr : ∀ c ∈ r, isSpace c = true) :
      IsSeparator (l ++ ',' :: r)
  | spaces {s : Text} (hne : s ≠ []) (hs : ∀ c ∈ s, isSpace c = true) : IsSeparator s

/-- Identifiers, each behind a separator. -/
inductive Listed : List Text → Text → Prop
  | nil : Listed [] []
  | cons {separator param : Text} {params : List Text} {t : Text} (hSeparator : IsSeparator separator)
      (hParam : isIdentifier param = true) (h : Listed params t) :
      Listed (param :: params) (separator ++ (param ++ t))

/-- No list of parameters goes on here: neither the last name nor with another one. -/
structure Unlisted (t : Text) : Prop where
  stop : ∀ c, t.head? = some c → isIdentChar c = false
  last : ∀ separator param more, IsSeparator separator → isIdentifier param = true →
    t ≠ separator ++ (param ++ more)

/-- `.macro` and spaces, the name and the parameters, and what is left of the line. -/
def Header (t : Text) (header : MacroHeader) (left : Text) : Prop :=
  ∃ spaces listed, t = ".macro".toList ++ (spaces ++ (header.name ++ (listed ++ left))) ∧
    spaces ≠ [] ∧ (∀ c ∈ spaces, isSpace c = true) ∧ isIdentifier header.name = true ∧
    Listed header.params listed ∧ Unlisted left

/-! ### Separators -/

variable {t rest : Text}

theorem skipSpaces_append {s : Text} (hs : ∀ c ∈ s, isSpace c = true)
    (hStop : ∀ c, t.head? = some c → isSpace c = false) : skipSpaces (s ++ t) = t :=
  (takeWhile_append_eq hs hStop).2

theorem not_isSpace_of_isIdentChar {c : Char} (h : isIdentChar c = true) : isSpace c = false := by
  rw [← Bool.not_eq_true]
  intro hSpace
  have hBlank := isBlank_of_isIdentChar h
  rw [isBlank_of_isSpace hSpace] at hBlank
  cases hBlank

theorem separator?_append {separator : Text} (h : IsSeparator separator)
    (hSpace : ∀ c, t.head? = some c → isSpace c = false) (hComma : t.head? ≠ some ',') :
    separator? (separator ++ t) = some t := by
  cases h with
  | @comma l r hl hr =>
    have hStop : ∀ c, (',' :: (r ++ t)).head? = some c → isSpace c = false := by
      rintro c ⟨⟩
      rfl
    rw [List.append_assoc, List.cons_append, separator?, skipSpaces_append hl hStop]
    exact congrArg some (skipSpaces_append hr hSpace)
  | spaces hne hs =>
    have hShorter : t.length < (separator ++ t).length := by
      have := List.length_pos_iff.mpr hne
      rw [List.length_append]
      omega
    rw [separator?, skipSpaces_append hs hSpace]
    split
    · exact absurd rfl hComma
    · rw [if_pos hShorter]

theorem exists_of_separator?_eq_some (h : separator? t = some rest) :
    ∃ separator, IsSeparator separator ∧ t = separator ++ rest := by
  have hSplit : t.takeWhile isSpace ++ skipSpaces t = t := List.takeWhile_append_dropWhile
  have hLeading : ∀ c ∈ t.takeWhile isSpace, isSpace c = true := fun c hc => List.mem_takeWhile_imp hc
  unfold separator? at h
  split at h
  · next after hAfter =>
    cases h
    have hTrailing : ∀ c ∈ after.takeWhile isSpace, isSpace c = true := fun c hc =>
      List.mem_takeWhile_imp hc
    refine ⟨_, .comma hLeading hTrailing, ?_⟩
    rw [List.append_assoc, List.cons_append, skipSpaces, List.takeWhile_append_dropWhile, ← hAfter,
      hSplit]
  · split at h
    · next hShorter =>
      cases h
      refine ⟨_, .spaces (fun hNil => ?_) hLeading, hSplit.symm⟩
      rw [hNil, List.nil_append] at hSplit
      rw [hSplit] at hShorter
      exact absurd hShorter (lt_irrefl _)
    · cases h

theorem IsSeparator.stop {separator : Text} (h : IsSeparator separator) (c : Char)
    (hc : (separator ++ t).head? = some c) : isIdentChar c = false := by
  have hSpace : ∀ x : Char, isSpace x = true → isIdentChar x = false := fun x hx =>
    isIdentChar_of_isBlank (isBlank_of_isSpace hx)
  cases h with
  | @comma l r hl hr =>
    cases l with
    | nil =>
      cases hc
      rfl
    | cons x l =>
      cases hc
      exact hSpace _ (hl _ List.mem_cons_self)
  | spaces hne hs =>
    cases separator with
    | nil => exact absurd rfl hne
    | cons x s =>
      cases hc
      exact hSpace _ (hs _ List.mem_cons_self)

theorem separator?_append_identifier {separator param : Text} (h : IsSeparator separator)
    (hParam : isIdentifier param = true) (more : Text) :
    separator? (separator ++ (param ++ more)) = some (param ++ more) := by
  obtain ⟨c, tail, rfl, hStart, -⟩ := isIdentifier_iff.mp hParam
  have hIdent := isIdentChar_of_isIdentStart hStart
  refine separator?_append h ?_ fun hComma => ?_
  · rintro x ⟨⟩
    exact not_isSpace_of_isIdentChar hIdent
  · cases hComma
    exact absurd hIdent (by decide)

/-! ### Lists of parameters -/

theorem Listed.stop {params : List Text} {listed left : Text} (h : Listed params listed)
    (hLeft : Unlisted left) (c : Char) (hc : (listed ++ left).head? = some c) :
    isIdentChar c = false := by
  cases h with
  | nil => exact hLeft.stop c hc
  | cons hSeparator hParam h =>
    rw [List.append_assoc] at hc
    exact hSeparator.stop c hc

theorem unlisted_iff : Unlisted t ↔ (∀ c, t.head? = some c → isIdentChar c = false) ∧
    ∀ rest, separator? t = some rest → identifier? rest = none := by
  constructor
  · intro h
    refine ⟨h.stop, fun rest hRest => ?_⟩
    obtain ⟨separator, hSeparator, rfl⟩ := exists_of_separator?_eq_some hRest
    rw [Option.eq_none_iff_forall_not_mem]
    rintro ⟨param, more⟩ hParam
    obtain ⟨rfl, hName, -⟩ := identifier?_eq_some_iff.mp hParam
    exact h.last _ _ _ hSeparator hName rfl
  · rintro ⟨hStop, hNone⟩
    refine ⟨hStop, fun separator param more hSeparator hParam hText => ?_⟩
    have hRest := hNone _ (hText ▸ separator?_append_identifier hSeparator hParam more)
    obtain ⟨c, tail, rfl, hStart, -⟩ := isIdentifier_iff.mp hParam
    simp [identifier?, hStart] at hRest

theorem moreParameters_of_none (h : ∀ rest, separator? t = some rest → identifier? rest = none) :
    moreParameters t = ([], t) := by
  rw [moreParameters]
  split
  · rfl
  next rest hRest =>
  split
  · rfl
  · next hParam => cases (h rest hRest).symm.trans hParam

theorem moreParameters_of_some {param after : Text} (hRest : separator? t = some rest)
    (hParam : identifier? rest = some (param, after)) :
    moreParameters t = (param :: (moreParameters after).1, (moreParameters after).2) := by
  rw [moreParameters]
  split
  · next hNone => cases hRest.symm.trans hNone
  next hSome =>
  cases hRest.symm.trans hSome
  split
  · next hNone => cases hParam.symm.trans hNone
  · next hSome =>
    cases hParam.symm.trans hSome
    rfl

theorem moreParameters_append {params : List Text} {listed left : Text} (h : Listed params listed)
    (hLeft : Unlisted left) : moreParameters (listed ++ left) = (params, left) := by
  induction h with
  | nil => exact moreParameters_of_none (unlisted_iff.mp hLeft).2
  | @cons separator param params t hSeparator hParam h ih =>
    have hIdentifier : identifier? (param ++ (t ++ left)) = some (param, t ++ left) :=
      identifier?_eq_some_iff.mpr ⟨rfl, hParam, h.stop hLeft⟩
    rw [List.append_assoc, List.append_assoc,
      moreParameters_of_some (separator?_append_identifier hSeparator hParam _) hIdentifier, ih]

theorem exists_listed_moreParameters (t : Text)
    (hStop : ∀ c, t.head? = some c → isIdentChar c = false) :
    ∃ listed, t = listed ++ (moreParameters t).2 ∧ Listed (moreParameters t).1 listed ∧
      Unlisted (moreParameters t).2 := by
  by_cases hNone : ∀ rest, separator? t = some rest → identifier? rest = none
  · rw [moreParameters_of_none hNone]
    exact ⟨[], rfl, .nil, unlisted_iff.mpr ⟨hStop, hNone⟩⟩
  · push Not at hNone
    obtain ⟨rest, hRest, hSome⟩ := hNone
    obtain ⟨⟨param, after⟩, hParam⟩ := Option.ne_none_iff_exists'.mp hSome
    obtain ⟨separator, hSeparator, hText⟩ := exists_of_separator?_eq_some hRest
    obtain ⟨hSplit, hName, hStop'⟩ := identifier?_eq_some_iff.mp hParam
    have hShorter : after.length < t.length :=
      (length_lt_of_identifier? hParam).trans_le (length_le_of_separator? hRest)
    obtain ⟨listed, hAfter, hListed, hLeft⟩ := exists_listed_moreParameters after hStop'
    rw [moreParameters_of_some hRest hParam]
    refine ⟨separator ++ (param ++ listed), ?_, .cons hSeparator hName hListed, hLeft⟩
    rw [List.append_assoc, List.append_assoc, ← hAfter, ← hSplit, hText]
  termination_by t.length

/-- The separator in front of the first parameter may be missing, but a name only ends where one
stands. -/
theorem parameters_of_separator (hStop : ∀ c, t.head? = some c → isIdentChar c = false) :
    (parameters ((separator? t).getD t)).1 = (moreParameters t).1 := by
  cases hRest : separator? t with
  | none =>
    have hName : identifier? t = none := by
      cases t with
      | nil => rfl
      | cons c t => simp [identifier?, isIdentStart_eq_false (hStop c rfl)]
    rw [moreParameters_of_none (by simp [hRest]), Option.getD_none, parameters, hName]
  | some rest =>
    rw [Option.getD_some, parameters]
    cases hParam : identifier? rest with
    | none => rw [moreParameters_of_none (by simp [hRest, hParam])]
    | some found => rw [moreParameters_of_some hRest hParam]

/-! ### Headers -/

theorem header_iff {header : MacroHeader} {left : Text} :
    Header t header left ↔ ∃ c rest after, t = '.' :: 'm' :: 'a' :: 'c' :: 'r' :: 'o' :: c :: rest ∧
      isSpace c = true ∧ identifier? (skipSpaces rest) = some (header.name, after) ∧
        moreParameters after = (header.params, left) := by
  constructor
  · rintro ⟨spaces, listed, rfl, hne, hSpaces, hName, hListed, hLeft⟩
    obtain ⟨c, spaces, rfl⟩ := List.exists_cons_of_ne_nil hne
    rw [List.forall_mem_cons] at hSpaces
    rw [List.cons_append]
    have hStop : ∀ x, (header.name ++ (listed ++ left)).head? = some x → isSpace x = false := by
      obtain ⟨x, tail, hCons, hStart, -⟩ := isIdentifier_iff.mp hName
      rw [hCons]
      rintro y ⟨⟩
      exact not_isSpace_of_isIdentChar (isIdentChar_of_isIdentStart hStart)
    refine ⟨c, _, listed ++ left, rfl, hSpaces.1, ?_, moreParameters_append hListed hLeft⟩
    rw [skipSpaces_append hSpaces.2 hStop]
    exact identifier?_eq_some_iff.mpr ⟨rfl, hName, hListed.stop hLeft⟩
  · rintro ⟨c, rest, after, rfl, hSpace, hName, hMore⟩
    obtain ⟨hSplit, hName, hStop⟩ := identifier?_eq_some_iff.mp hName
    obtain ⟨listed, hAfter, hListed, hLeft⟩ := exists_listed_moreParameters after hStop
    rw [hMore] at hAfter hListed hLeft
    have hSpaces : ∀ x ∈ rest.takeWhile isSpace, isSpace x = true := fun x hx =>
      List.mem_takeWhile_imp hx
    refine ⟨c :: rest.takeWhile isSpace, listed, ?_, List.cons_ne_nil _ _,
      List.forall_mem_cons.mpr ⟨hSpace, hSpaces⟩, hName, hListed, hLeft⟩
    rw [← hAfter, ← hSplit, List.cons_append, skipSpaces, List.takeWhile_append_dropWhile]
    rfl

/-- A line has one header at most, and one thing is left of it. -/
theorem Header.unique {header header' : MacroHeader} {left left' : Text} (h : Header t header left)
    (h' : Header t header' left') : header = header' ∧ left = left' := by
  obtain ⟨c, rest, after, rfl, -, hName, hMore⟩ := header_iff.mp h
  obtain ⟨c', rest', after', hText, -, hName', hMore'⟩ := header_iff.mp h'
  cases hText
  obtain ⟨name, params⟩ := header
  obtain ⟨name', params'⟩ := header'
  cases hName.symm.trans hName'
  cases hMore.symm.trans hMore'
  exact ⟨rfl, rfl⟩

theorem exists_macroHeader?_iff {header : MacroHeader} :
    (∃ after, macroHeader? t = some (header, after)) ↔ ∃ left, Header t header left := by
  simp only [header_iff]
  constructor
  · rintro ⟨after, h⟩
    unfold macroHeader? at h
    split at h
    · next c rest =>
      split at h
      · next hSpace =>
        split at h
        · cases h
        · next name rest' hName =>
          cases h
          have hStop := (identifier?_eq_some_iff.mp hName).2.2
          have hParams := parameters_of_separator hStop
          exact ⟨(moreParameters rest').2, c, rest, rest', rfl, hSpace, hName,
            Prod.ext hParams.symm rfl⟩
      · cases h
    · cases h
  · rintro ⟨left, c, rest, after, rfl, hSpace, hName, hMore⟩
    have hStop := (identifier?_eq_some_iff.mp hName).2.2
    have hParams := parameters_of_separator hStop
    rw [hMore] at hParams
    obtain ⟨name, params⟩ := header
    simp only [macroHeader?, if_pos hSpace, hName]
    generalize parameters ((separator? after).getD after) = found at hParams
    cases hParams
    exact ⟨_, rfl⟩

end Line

/-! ### Lines that open a macro -/

/-- The directive at the front of the line is `.macro`, in any case. -/
def IsMacroLine (t : Text) : Prop :=
  ∃ word operands, Line.directive? t = some (word, operands) ∧ lowercase word = "macro".toList

namespace Draft

variable {d d₁ : Draft} {line : Nat} {t : Text}

theorem head?_of_isMacroLine (h : IsMacroLine t) : t.head? = some '.' := by
  obtain ⟨word, operands, hDirective, -⟩ := h
  rw [(Line.directive?_eq_some_iff.mp hDirective).1]
  rfl

theorem directive_of_isMacroLine (h : IsMacroLine t) (line : Nat) (d : Draft) :
    d.directive line t =
      match Line.macroHeader? t with
      | none => .error (Cause.atLine (.expansion .expectedName) line)
      | some (header, _) =>
        .ok { d with recording := some ⟨header.name, header.params, #[], line⟩ } := by
  obtain ⟨word, operands, hDirective, hWord⟩ := h
  have hName : Directive.ofName? word = some .openMacro := by
    have hSame : lowercase word = lowercase "macro".toList := by
      rw [hWord]
      decide
    rw [Directive.ofName?_congr hSame]
    decide +kernel
  rw [directive, hDirective]
  cases Line.macroHeader? t <;> simp only [hName]

theorem directive_eq_ok_iff_of_isMacroLine (h : IsMacroLine t) {r : Recording} :
    d.directive line t = .ok { d with recording := some r } ↔
      ∃ header left, Line.Header t header left ∧ r = ⟨header.name, header.params, #[], line⟩ := by
  rw [directive_of_isMacroLine h]
  constructor
  · intro hOpens
    split at hOpens
    · cases hOpens
    next header after hHeader =>
    obtain ⟨left, hHeader⟩ := Line.exists_macroHeader?_iff.mp ⟨after, hHeader⟩
    have hRecording := congrArg Draft.recording (Except.ok.inj hOpens)
    exact ⟨header, left, hHeader, (Option.some.inj hRecording).symm⟩
  · rintro ⟨header, left, hHeader, rfl⟩
    obtain ⟨after, hHeader⟩ := Line.exists_macroHeader?_iff.mpr ⟨left, hHeader⟩
    rw [hHeader]

theorem directive_of_no_header (h : IsMacroLine t)
    (hNone : ∀ header left, ¬ Line.Header t header left) :
    d.directive line t = .error (Cause.atLine (.expansion .expectedName) line) := by
  rw [directive_of_isMacroLine h]
  split
  · rfl
  · next header after hHeader =>
    obtain ⟨left, hHeader⟩ := Line.exists_macroHeader?_iff.mp ⟨after, hHeader⟩
    exact absurd hHeader (hNone header left)

end Draft

section Source

variable {source raw text : Text} {before after : List Text} {d d₁ : Draft}

/-- A `.macro` line is read up to where its list of parameters ends. If it is a header up to there,
the macro is recorded, and what is left of the line is dropped; if it is none, the source is refused
at the line. -/
theorem macro_line_opens_iff_header (hSource : lines source = before ++ raw :: after)
    (hBefore : Draft.readLines 1 before Draft.new = .ok d) (hRunning : d.ended = false)
    (hRecording : d.recording = none) (hConstant : Draft.constantOperands? (said raw) = none)
    (hText : d.substituteConstants (said raw) = text)
    (hLabels : d.labelled (1 + before.length) text = .ok d₁)
    (hMacro : IsMacroLine (trim (Line.labels text).2)) :
    (∀ r, Draft.readLines 1 (before ++ [raw]) Draft.new = .ok { d₁ with recording := some r } ↔
      ∃ header left, Line.Header (trim (Line.labels text).2) header left ∧
        r = ⟨header.name, header.params, #[], 1 + before.length⟩) ∧
    ((∀ header left, ¬ Line.Header (trim (Line.labels text).2) header left) →
      assemble source = .error ⟨1 + before.length, .expansion .expectedName, none⟩) := by
  have hLine : d.readLine (1 + before.length) raw =
      d₁.directive (1 + before.length) (trim (Line.labels text).2) := by
    rw [Draft.readLine_eq_statement hRecording hConstant, hText,
      Draft.statement_eq_labelled_directive (Draft.head?_of_isMacroLine hMacro), hLabels]
    rfl
  have hRead := fun more => Draft.readLines_append hBefore hRunning more
  refine ⟨fun r => ?_, fun hNone => ?_⟩
  · rw [hRead, Draft.readLines_singleton, hLine]
    exact Draft.directive_eq_ok_iff_of_isMacroLine hMacro
  · rw [Draft.directive_of_no_header hMacro hNone] at hLine
    rw [assemble, Draft.ofSource, hSource, hRead, Draft.readLines, hLine]
    rfl

end Source

def numberedSource : Text := ".macro m a, 1b\n.endm\n".toList

theorem header_numberedSource :
    Line.Header ".macro m a, 1b".toList ⟨"m".toList, ["a".toList]⟩ ", 1b".toList :=
  Line.header_iff.mpr ⟨' ', "m a, 1b".toList, " a, 1b".toList, by decide, by decide, by decide,
    by decide +kernel⟩

theorem macro_line_opens_iff_header_numberedSource :
    Draft.readLines 1 [".macro m a, 1b".toList] Draft.new =
      .ok { Draft.new with recording := some ⟨"m".toList, ["a".toList], #[], 1⟩ } := by
  have hText : Draft.new.substituteConstants (said ".macro m a, 1b".toList) =
      ".macro m a, 1b".toList := by decide +kernel
  have hNoLabel : Line.labels ".macro m a, 1b".toList = ([], ".macro m a, 1b".toList) := by
    decide +kernel
  have hLabels : Draft.new.labelled 1 ".macro m a, 1b".toList = .ok Draft.new := by
    rw [Draft.labelled, hNoLabel]
    rfl
  have hTrim : trim (Line.labels ".macro m a, 1b".toList).2 = ".macro m a, 1b".toList := by
    rw [hNoLabel]
    decide
  have hMacro : IsMacroLine ".macro m a, 1b".toList :=
    ⟨"macro".toList, " m a, 1b".toList, by decide, by decide⟩
  have hLines : lines numberedSource = [] ++ ".macro m a, 1b".toList :: [".endm".toList] := by
    decide +kernel
  obtain ⟨hOpens, -⟩ := macro_line_opens_iff_header hLines rfl rfl rfl (by decide +kernel) hText
    hLabels (by rwa [hTrim])
  rw [hTrim] at hOpens
  exact (hOpens _).mpr ⟨_, _, header_numberedSource, rfl⟩

/-- No header makes up the whole line, and yet the source is accepted. -/
theorem rest_of_header_dropped :
    (∀ header, ¬ Line.Header ".macro m a, 1b".toList header []) ∧
      (assemble numberedSource).toOption.map (·.image) = some #[0, 0, 0, 0] := by
  refine ⟨fun header hWhole => ?_, by decide +kernel⟩
  obtain ⟨-, hLeft⟩ := hWhole.unique header_numberedSource
  exact absurd hLeft (by decide)

end NiosBoard
