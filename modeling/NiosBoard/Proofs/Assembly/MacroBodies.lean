import NiosBoard.Proofs.Assembly.Image
import NiosBoard.Proofs.Assembly.MacroHeaders
import NiosBoard.Proofs.Assembly.MacroTable

/-! # Macros from `.macro` to `.endm`

A line that opens a macro may come out of a macro call. Then the rest of the call is carried out all
the same, and there is one place only for a macro that is being recorded: of all macros that one line
of the source opens, the last is recorded. That one is entered into the table by the line that closes
it, and stays there, or the source is refused at the line that opened it.
-/

namespace NiosBoard

open Text
open Line (MacroHeader)

def Line.opens? (t : Text) : Option MacroHeader :=
  match Line.directive? t with
  | some (word, _) =>
    if Directive.ofName? word = some .openMacro then (Line.macroHeader? t).map Prod.fst else none
  | none => none

/-- The macros that a statement opens, in order, with macro calls nested at most `nesting` deep
below it. -/
def MacroTable.openings (macros : MacroTable) (nesting : Nat) (t : Text) : List MacroHeader :=
  let body := trim (Line.labels t).2
  if body.head? = some '.' then (Line.opens? body).toList
  else
    match Line.mnemonic? body with
    | none => []
    | some (name, operands) =>
      if macros.contains name then
        match nesting with
        | 0 => []
        | nesting + 1 =>
          match macros.expand name operands with
          | .error _ => []
          | .ok lines => lines.flatMap (macros.openings nesting)
      else []

/-- What is being recorded when these macros have been opened one after another. -/
def lastOpened (line : Nat) (r : Option Recording) (opened : List MacroHeader) : Option Recording :=
  opened.foldl (fun _ header => some ⟨header.name, header.params, #[], line⟩) r

theorem lastOpened_append (line : Nat) (r : Option Recording) (opened opened' : List MacroHeader) :
    lastOpened line r (opened ++ opened') = lastOpened line (lastOpened line r opened) opened' :=
  List.foldl_append

def Draft.openings (d : Draft) (raw : Text) : List MacroHeader :=
  if d.recording.isSome || (Draft.constantOperands? (said raw)).isSome then []
  else d.macros.openings Draft.maxNesting (d.substituteConstants (said raw))

namespace Draft

variable {d d' : Draft} {line : Nat} {t raw : Text}

/-! ### What a line opens -/

theorem recording_of_defineLabel {name : Text} {namesData : Bool}
    (h : d.defineLabel name namesData = .ok d') : d'.recording = d.recording := by
  unfold defineLabel at h
  split at h
  · cases h
  split at h <;> cases h <;> rfl

theorem recording_of_appendInstruction {name operands : Text}
    (h : d.appendInstruction line name operands = .ok d') : d'.recording = d.recording := by
  unfold appendInstruction at h
  split at h
  · cases h
  obtain ⟨p, -, h⟩ := bind_eq_ok_iff.mp h
  cases h
  rfl

theorem recording_of_declareGlobals {names : List Text}
    (h : d.declareGlobals line names = .ok d') : d'.recording = d.recording := by
  refine foldlM_preserves (P := fun d₁ => d₁.recording = d.recording) ?_ rfl h
  intro name d₁ d₂ hRecording hd
  split at hd <;> cases hd
  exact hRecording

theorem recording_of_directive (h : d.directive line t = .ok d') :
    d'.recording = lastOpened line d.recording (Line.opens? t).toList := by
  unfold directive at h
  unfold Line.opens?
  split at h
  · cases h
  next name operands hDirective =>
  rw [hDirective]
  simp only
  split at h
  · next hName =>
    cases h
    simp [hName, lastOpened]
  · next hName =>
    cases h
    simp [hName, lastOpened]
  · next hName =>
    rw [eq_of_defineConstant (located_eq_ok_iff.mp h)]
    simp [hName, lastOpened]
  · next hName =>
    rw [recording_of_declareGlobals (located_eq_ok_iff.mp h)]
    simp [hName, lastOpened]
  · next hName =>
    split at h
    · cases h
    next header after hHeader =>
    cases h
    simp [hName, hHeader, lastOpened]
  · cases h
  · next hName =>
    cases h
    simp [hName, lastOpened]
  · next hName =>
    obtain ⟨item, -, h⟩ := bind_eq_ok_iff.mp h
    cases h
    simp [hName, lastOpened]
  · cases h

/-- Of the macros that a statement opens the last one is recorded. Induction on the depth of macro
calls. -/
theorem recording_of_statement {nesting : Nat} (h : d.statement nesting line t = .ok d') :
    d'.recording = lastOpened line d.recording (d.macros.openings nesting t) := by
  induction nesting using Nat.strongRecOn generalizing d d' t with
  | ind nesting ih =>
    obtain ⟨d₁, body, rfl, hLabels, hRest⟩ := statement_eq_ok h
    have hRecording : d₁.recording = d.recording :=
      foldlM_preserves (P := fun d₁ => d₁.recording = d.recording)
        (fun _ _ _ hEq hd => (recording_of_defineLabel hd).trans hEq) rfl hLabels
    have hMacros : d₁.macros = d.macros :=
      foldlM_preserves (P := fun d₁ => d₁.macros = d.macros)
        (fun _ _ _ hEq hd => (keeps_of_defineLabel hd).macros.trans hEq) rfl hLabels
    rw [← hRecording, ← hMacros, MacroTable.openings]
    rcases hRest with ⟨hBody, rfl⟩ | ⟨hDot, hd⟩ | ⟨name, operands, hDot, hName, hRest⟩
    · rw [hBody]
      rfl
    · rw [if_pos hDot]
      exact recording_of_directive hd
    · simp only [if_neg hDot, hName]
      rcases hRest with ⟨hMacro, n, calls, rfl, hCalls, hd⟩ | ⟨hMacro, hd⟩
      · have hRun := foldlM_related (c := [])
          (R := fun opened d₂ => d₂.macros = d₁.macros ∧
            d₂.recording = lastOpened line d₁.recording opened)
          (g := fun opened t => opened ++ d₁.macros.openings n t)
          (fun opened d₂ t d₃ hR hd => by
            have hLast := ih n (Nat.lt_succ_self n) hd
            rw [hR.1, hR.2, ← lastOpened_append] at hLast
            exact ⟨(macros_of_statement hd).trans hR.1, hLast⟩) ⟨rfl, rfl⟩ hd
        rw [hMacro]
        simp only [if_true, hCalls, List.flatMap_eq_foldl]
        exact hRun.2
      · rw [hMacro, recording_of_appendInstruction hd]
        rfl

theorem recording_of_readLine (hRecording : d.recording = none) (h : d.readLine line raw = .ok d') :
    d'.recording = lastOpened line none (d.openings raw) ∧ d'.macros = d.macros := by
  cases hConstant : constantOperands? (said raw) with
  | some operands =>
    rw [readLine_eq_defineConstant hRecording hConstant] at h
    rw [eq_of_defineConstant (located_eq_ok_iff.mp h), openings, hConstant, hRecording]
    exact ⟨rfl, rfl⟩
  | none =>
    rw [readLine_eq_statement hRecording hConstant] at h
    have hLast := recording_of_statement h
    rw [hRecording] at hLast
    rw [openings, hConstant, hRecording]
    exact ⟨hLast, macros_of_statement h⟩

theorem recording_eq_none_of_openings {header : MacroHeader} (h : header ∈ d.openings raw) :
    d.recording = none := by
  unfold openings at h
  split at h
  · cases h
  · next hRead =>
    rw [Bool.or_eq_true, not_or] at hRead
    simpa using hRead.1

/-! ### Recording -/

theorem readLines_record {r : Recording} {body : List Text} (line : Nat)
    (hRecording : d.recording = some r) (hRunning : d.ended = false)
    (hBody : ∀ raw ∈ body, Line.closesMacro (said raw) = false) :
    readLines line body d = .ok { d with
      recording := some { r with
        body := r.body ++ (body.map fun raw => d.substituteConstants (said raw)).toArray } } := by
  induction body generalizing line d r with
  | nil =>
    rw [readLines, List.map_nil, Array.append_empty, ← hRecording]
  | cons raw body ih =>
    rw [List.forall_mem_cons] at hBody
    have hLine := readLine_eq_record hRecording line raw
    rw [hBody.1, if_neg Bool.false_ne_true] at hLine
    rw [readLines_cons hLine hRunning]
    have hRest := ih (line + 1) (d := { d with
      recording := some { r with body := r.body.push (d.substituteConstants (said raw)) } }) rfl
      hRunning hBody.2
    refine hRest.trans ?_
    simp [substituteConstants]

/-! ### Entering a macro -/

/-- Every macro of the first table is in the second one as it was. -/
def Entered (m m' : MacroTable) : Prop := ∀ name entry, m.get? name = some entry → m'.get? name = some entry

theorem entered_of_define {m m' : MacroTable} {name : Text} {params body : List Text}
    (h : m.define name params body = .ok m') :
    Entered m m' ∧ m'.get? name = some ⟨params, body⟩ := by
  obtain ⟨hNone, -, rfl⟩ := MacroTable.define_eq_ok_iff.mp h
  refine ⟨fun other entry hEntry => ?_, ?_⟩
  · rw [MacroTable.get?, Table.get?_insert, if_neg]
    · exact hEntry
    · intro hSame
      rw [MacroTable.get?, hSame] at hEntry
      cases hNone.symm.trans hEntry
  · rw [MacroTable.get?, Table.get?_insert, if_pos rfl]

theorem entered_of_readLine (h : d.readLine line raw = .ok d') : Entered d.macros d'.macros := by
  cases hRecording : d.recording with
  | none =>
    rw [(recording_of_readLine hRecording h).2]
    exact fun _ _ hEntry => hEntry
  | some r =>
    rw [readLine_eq_record hRecording] at h
    split at h
    · obtain ⟨macros, hDefine, rfl⟩ := closeRecording_eq_ok_iff.mp h
      exact (entered_of_define hDefine).1
    · cases h
      exact fun _ _ hEntry => hEntry

theorem entered_of_readLines {raws : List Text} (h : readLines line raws d = .ok d') :
    Entered d.macros d'.macros :=
  related_of_readLines (R := fun d d' => Entered d.macros d'.macros) (fun _ _ _ hEntry => hEntry)
    (fun hFirst hRest name entry hEntry => hRest name entry (hFirst name entry hEntry))
    entered_of_readLine h

theorem exists_first_closer (raws : List Text) :
    (∀ raw ∈ raws, Line.closesMacro (said raw) = false) ∨
      ∃ body closer rest, raws = body ++ closer :: rest ∧
        (∀ raw ∈ body, Line.closesMacro (said raw) = false) ∧
        Line.closesMacro (said closer) = true := by
  induction raws with
  | nil => exact .inl (by simp)
  | cons raw raws ih =>
    cases hRaw : Line.closesMacro (said raw) with
    | true => exact .inr ⟨[], raw, raws, rfl, by simp, hRaw⟩
    | false =>
      rcases ih with hNone | ⟨body, closer, rest, rfl, hBody, hCloser⟩
      · exact .inl (List.forall_mem_cons.mpr ⟨hRaw, hNone⟩)
      · exact .inr ⟨raw :: body, closer, rest, rfl, List.forall_mem_cons.mpr ⟨hRaw, hBody⟩, hCloser⟩

/-- The line that closes a macro enters it with the lines recorded before, for good. -/
theorem entered_of_closer {r : Recording} {body rest : List Text} {closer : Text}
    (hRecording : d.recording = some r) (hRunning : d.ended = false)
    (hBody : ∀ raw ∈ body, Line.closesMacro (said raw) = false)
    (hCloser : Line.closesMacro (said closer) = true)
    (h : readLines line (body ++ closer :: rest) d = .ok d') :
    d'.macros.get? r.name = some ⟨r.params, r.body.toList ++
      body.map fun raw => d.substituteConstants (said raw)⟩ := by
  have hRecorded := readLines_record line hRecording hRunning hBody
  rw [readLines_append hRecorded hRunning, readLines] at h
  obtain ⟨d₁, hLine, h⟩ := bind_eq_ok_iff.mp h
  rw [readLine_eq_record rfl, hCloser, if_pos rfl] at hLine
  obtain ⟨macros, hDefine, rfl⟩ := closeRecording_eq_ok_iff.mp hLine
  obtain ⟨-, hEntry⟩ := entered_of_define hDefine
  rw [if_neg (by simp [hRunning])] at h
  have hKept := entered_of_readLines h _ _ hEntry
  simpa using hKept

theorem assemble_of_recording {source : Text} {r : Recording}
    (h : readLines 1 (lines source) new = .ok d) (hRecording : d.recording = some r) :
    assemble source = .error ⟨r.line, .expansion (.unterminated r.name), none⟩ := by
  rw [assemble_eq_assembleLines, assembleLines, h]
  show d.finish = _
  rw [finish, hRecording]
  rfl

end Draft

section Source

variable {source raw : Text} {before after : List Text} {d d₁ : Draft} {opened : List MacroHeader}
  {header : MacroHeader}

/-- Of the macros that a line opens, the last is the one that is recorded. If the source is accepted,
a later line closes it, the lines in between are its body, and it stays in the table; if none does,
or the program ends on the line, the source is refused at the line. -/
theorem last_opened_macro_entered (hSource : lines source = before ++ raw :: after)
    (hBefore : Draft.readLines 1 before Draft.new = .ok d) (hRunning : d.ended = false)
    (hLine : d.readLine (1 + before.length) raw = .ok d₁)
    (hOpened : d.openings raw = opened ++ [header]) :
    (d₁.macros = d.macros ∧
      d₁.recording = some ⟨header.name, header.params, #[], 1 + before.length⟩) ∧
    (∀ p, assemble source = .ok p → ∃ body closer rest d', after = body ++ closer :: rest ∧
      (∀ raw ∈ body, Line.closesMacro (said raw) = false) ∧ Line.closesMacro (said closer) = true ∧
      Draft.ofSource source = .ok d' ∧ d'.macros.get? header.name =
        some ⟨header.params, body.map fun raw => d₁.substituteConstants (said raw)⟩) ∧
    (d₁.ended = true ∨ (∀ raw ∈ after, Line.closesMacro (said raw) = false) →
      assemble source =
        .error ⟨1 + before.length, .expansion (.unterminated header.name), none⟩) := by
  have hFree := Draft.recording_eq_none_of_openings (hOpened ▸ List.mem_append_right _ List.mem_cons_self)
  obtain ⟨hRecording, hMacros⟩ := Draft.recording_of_readLine hFree hLine
  rw [hOpened, lastOpened_append] at hRecording
  have hRead := Draft.readLines_append hBefore hRunning (raw :: after)
  rw [← hSource] at hRead
  have hRefused : d₁.ended = true ∨ (∀ raw ∈ after, Line.closesMacro (said raw) = false) →
      assemble source =
        .error ⟨1 + before.length, .expansion (.unterminated header.name), none⟩ := by
    intro hOpen
    cases hEnded : d₁.ended with
    | true =>
      rw [Draft.readLines, hLine] at hRead
      exact Draft.assemble_of_recording (hRead.trans (if_pos hEnded)) hRecording
    | false =>
      have hNone := hOpen.resolve_left (by simp [hEnded])
      rw [Draft.readLines_cons hLine hEnded, Draft.readLines_record _ hRecording hEnded hNone] at hRead
      exact Draft.assemble_of_recording hRead rfl
  refine ⟨⟨hMacros, hRecording⟩, fun p hp => ?_, hRefused⟩
  have hClosed : ¬ (d₁.ended = true ∨ ∀ raw ∈ after, Line.closesMacro (said raw) = false) :=
    fun hOpen => by cases hp.symm.trans (hRefused hOpen)
  rw [not_or, Bool.not_eq_true] at hClosed
  obtain ⟨body, closer, rest, rfl, hBody, hCloser⟩ :=
    (Draft.exists_first_closer after).resolve_left hClosed.2
  obtain ⟨d', hOfSource, -⟩ := bind_eq_ok_iff.mp hp
  refine ⟨body, closer, rest, d', rfl, hBody, hCloser, hOfSource, ?_⟩
  obtain ⟨d₂, hLines, hEnd⟩ := bind_eq_ok_iff.mp hOfSource
  rw [hRead, Draft.readLines_cons hLine hClosed.1] at hLines
  split at hEnd <;> cases hEnd
  exact Draft.entered_of_closer hRecording hClosed.1 hBody hCloser hLines

end Source

def twoSource : Text := ".macro two\n.macro a\n.macro b\n.endm\ntwo\n.endm\n".toList

theorem last_opened_macro_entered_twoSource :
    ∃ d', Draft.ofSource twoSource = .ok d' ∧ d'.macros.get? "b".toList = some ⟨[], []⟩ := by
  have hFirst : (Draft.readLines 1 ((lines twoSource).take 4) Draft.new).toOption.map
      (fun d => (d.ended, d.openings "two".toList, (d.readLine 5 "two".toList).toOption.isSome)) =
        some (false, [⟨"a".toList, []⟩] ++ [⟨"b".toList, []⟩], true) := by decide +kernel
  obtain ⟨d, hBefore, hFacts⟩ := exists_ok_of_map_eq hFirst
  obtain ⟨hRunning, hFacts⟩ := Prod.mk.inj hFacts
  obtain ⟨hOpened, hLine⟩ := Prod.mk.inj hFacts
  obtain ⟨d₁, hLine⟩ := Option.isSome_iff_exists.mp hLine
  have hAccepted : (assemble twoSource).toOption.map (·.lines) = some #[] := by decide +kernel
  obtain ⟨p, hp, -⟩ := exists_ok_of_map_eq hAccepted
  have hLines : lines twoSource =
      (lines twoSource).take 4 ++ "two".toList :: [".endm".toList] := by decide +kernel
  obtain ⟨-, hEntered, -⟩ := last_opened_macro_entered hLines hBefore
    hRunning (toOption_eq_some_iff.mp hLine) hOpened
  obtain ⟨body, closer, rest, d', hAfter, -, -, hOfSource, hEntry⟩ := hEntered p hp
  have hBody : body = [] := by
    cases body with
    | nil => rfl
    | cons raw body => simp at hAfter
  rw [hBody] at hEntry
  exact ⟨d', hOfSource, hEntry⟩

/-- The first macro that the call opens is not in the table of the accepted source. -/
theorem earlier_opened_macro_lost :
    (Draft.readLines 1 ((lines twoSource).take 4) Draft.new).toOption.map
        (·.openings "two".toList) = some [⟨"a".toList, []⟩, ⟨"b".toList, []⟩] ∧
      (assemble twoSource).toOption.map (·.lines) = some #[] ∧
      (Draft.ofSource twoSource).toOption.map (·.macros.contains "a".toList) = some false := by
  refine ⟨by decide +kernel, by decide +kernel, by decide +kernel⟩

end NiosBoard
