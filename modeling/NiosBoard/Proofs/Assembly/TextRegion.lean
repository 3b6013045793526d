import NiosBoard.Proofs.Assembly.DirectiveNames
import NiosBoard.Proofs.Assembly.SourceLines
import NiosBoard.Proofs.Isa.Coding
import NiosBoard.Proofs.Isa.Notation

/-! # Instructions and data directives of the text region

A line with an instruction declares its labels at the address that the instruction gets; a line with
a data directive hands its labels to the data item, behind those that wait. Both leave alone what
later lines are read with, so that another such line in front changes nothing about what a line says.
-/

namespace NiosBoard

open Text

/-- Labels that are not declared yet, each written once. -/
def Fresh (defined labels : List Text) : Prop := labels.Nodup ∧ labels.Disjoint defined

theorem fresh_cons_iff {defined labels : List Text} {name : Text} :
    Fresh defined (name :: labels) ↔ name ∉ defined ∧ Fresh (name :: defined) labels := by
  simp only [Fresh, List.nodup_cons, List.disjoint_cons_left, List.disjoint_cons_right]
  tauto

/-- Two lists of labels may be declared in either order. -/
theorem fresh_and_fresh_comm {defined labels labels' : List Text} :
    Fresh defined labels ∧ Fresh (labels.reverse ++ defined) labels' ↔
      Fresh defined labels' ∧ Fresh (labels'.reverse ++ defined) labels := by
  have hComm : labels.Disjoint labels' ↔ labels'.Disjoint labels := List.disjoint_comm
  simp only [Fresh, List.disjoint_append_right, List.disjoint_reverse_right, hComm]
  tauto

namespace Draft

variable {d d' : Draft} {line : Nat} {t raw operands : Text} {labels : List Text} {o : Opcode}
  {kind : DataKind}

/-! ### Labels -/

/-- The draft with more labels, of data or of the next instruction. -/
def withLabels (d : Draft) (namesData : Bool) (labels : List Text) : Draft :=
  { d with
    defined := labels.reverse ++ d.defined
    waiting := if namesData then d.waiting ++ labels else d.waiting
    symbols := if namesData then d.symbols else place labels (codeAddress d.code.size) d.symbols }

theorem defineLabel_eq_ok_iff (hText : d.region = .text) {name : Text} {namesData : Bool} :
    d.defineLabel name namesData = .ok d' ↔
      name ∉ d.defined ∧ d' = d.withLabels namesData [name] := by
  rw [defineLabel]
  split
  · next hDefined => simpa using fun hNew => absurd (by simpa using hDefined) hNew
  next hDefined =>
  have hNew : name ∉ d.defined := by simpa using hDefined
  cases namesData with
  | true => simp [hNew, withLabels, eq_comm]
  | false => simp [hNew, hText, withLabels, place, eq_comm]

theorem defineLabels_eq_ok_iff (hText : d.region = .text) {namesData : Bool} :
    labels.foldlM (fun d name => d.defineLabel name namesData) d = .ok d' ↔
      Fresh d.defined labels ∧ d' = d.withLabels namesData labels := by
  induction labels generalizing d with
  | nil =>
    simp [Fresh, withLabels, place, pure, Except.pure, eq_comm]
  | cons name labels ih =>
    have hCons : (d.withLabels namesData [name]).withLabels namesData labels =
        d.withLabels namesData (name :: labels) := by
      cases namesData <;> simp [withLabels, place]
    rw [List.foldlM_cons, bind_eq_ok_iff, fresh_cons_iff, ← hCons]
    constructor
    · rintro ⟨d₁, hName, hRest⟩
      obtain ⟨hNew, rfl⟩ := (defineLabel_eq_ok_iff hText).mp hName
      obtain ⟨hFresh, rfl⟩ := (ih (by exact hText)).mp hRest
      exact ⟨⟨hNew, hFresh⟩, rfl⟩
    · rintro ⟨⟨hNew, hFresh⟩, rfl⟩
      exact ⟨_, (defineLabel_eq_ok_iff hText).mpr ⟨hNew, rfl⟩, (ih (by exact hText)).mpr ⟨hFresh, rfl⟩⟩

theorem labelled_eq_ok_iff (hText : d.region = .text) :
    d.labelled line t = .ok d' ↔ Fresh d.defined (Line.labels t).1 ∧
      d' = d.withLabels (isDataLine (trim (Line.labels t).2)) (Line.labels t).1 := by
  rw [labelled, located_eq_ok_iff]
  exact defineLabels_eq_ok_iff hText

/-! ### Lines of the text region -/

/-- With the constants and macros of the draft, the line is an instruction of the catalogue behind
its labels. -/
structure SaysInstruction (d : Draft) (raw : Text) (labels : List Text) (o : Opcode)
    (operands : Text) : Prop where
  noConstant : constantOperands? (said raw) = none
  labels : (Line.labels (d.substituteConstants (said raw))).1 = labels
  instruction : ∃ name, d.macros.contains name = false ∧ Opcode.ofMnemonic? name = some o ∧
    Line.mnemonic? (trim (Line.labels (d.substituteConstants (said raw))).2) = some (name, operands)

/-- With the constants of the draft, the line is a data directive behind its labels. -/
structure SaysItem (d : Draft) (raw : Text) (labels : List Text) (kind : DataKind)
    (operands : Text) : Prop where
  noConstant : constantOperands? (said raw) = none
  labels : (Line.labels (d.substituteConstants (said raw))).1 = labels
  item : ∃ word, DataKind.ofName? (lowercase word) = some kind ∧
    Line.directive? (trim (Line.labels (d.substituteConstants (said raw))).2) = some (word, operands)

/-- Lines are read into the text region, and not into the body of a macro. -/
structure InText (d : Draft) : Prop where
  region : d.region = .text
  recording : d.recording = none

/-- The draft with an instruction and its labels. -/
def withInstruction (d : Draft) (labels : List Text) (p : Pending) : Draft :=
  { d.withLabels false labels with code := d.code.push p }

/-- The draft with a data item and its labels, behind those that wait. -/
def withItem (d : Draft) (labels : List Text) (item : DataItem) (line : Nat) : Draft :=
  { d.withLabels true labels with
    waiting := []
    data := d.data.push ⟨d.waiting ++ labels, item, line⟩ }

/-- Mnemonics are letters, so that a line with one at its front is no directive. -/
theorem head?_ne_dot_of_mnemonic {body name : Text}
    (hName : Line.mnemonic? body = some (name, operands)) (hOpcode : Opcode.ofMnemonic? name = some o) :
    body.head? ≠ some '.' := by
  intro hDot
  obtain ⟨rest, rfl⟩ : ∃ rest, body = '.' :: rest := by
    cases body with
    | nil => cases hDot
    | cons c rest =>
      cases hDot
      exact ⟨rest, rfl⟩
  rw [Line.mnemonic?, List.takeWhile_cons_of_pos (by decide)] at hName
  cases hName
  have hMem : '.' ∈ o.mnemonic.toList := by
    rw [(Opcode.ofMnemonic?_eq_some_iff _ o).mp hOpcode]
    exact List.mem_cons_self
  exact absurd (isLower_of_mem_mnemonic hMem) (by decide)

theorem isDataLine_eq_false {body : Text} (hDot : body.head? ≠ some '.') : isDataLine body = false := by
  unfold isDataLine Line.directive?
  split
  · next hDirective =>
    split at hDirective
    · exact absurd rfl hDot
    · cases hDirective
  · rfl

theorem statement_eq_labelled_append {name : Text} (hText : d.region = .text)
    (hName : Line.mnemonic? (trim (Line.labels t).2) = some (name, operands))
    (hOpcode : Opcode.ofMnemonic? name = some o) (hMacro : d.macros.contains name = false)
    (nesting line : Nat) :
    d.statement nesting line t =
      d.labelled line t >>= fun d => d.appendInstruction line name operands := by
  have hDot := head?_ne_dot_of_mnemonic hName hOpcode
  have hBody : trim (Line.labels t).2 ≠ [] := by
    intro hNil
    rw [hNil] at hName
    cases hName
  rw [statement]
  refine bind_congr_of_ok fun d₁ hLabels => ?_
  obtain ⟨-, rfl⟩ := (labelled_eq_ok_iff hText).mp hLabels
  have hRegion : d.region ≠ .data := by
    rw [hText]
    decide
  rw [if_neg hBody, if_neg hDot, hName]
  exact (if_neg hRegion).trans (if_neg (by simp [hMacro, withLabels]))

theorem appendInstruction_eq_ok_iff {name : Text}
    (hOpcode : Opcode.ofMnemonic? name = some o) :
    d.appendInstruction line name operands = .ok d' ↔
      ∃ p, Pending.ofOperands o line (codeAddress d.code.size) operands = .ok p ∧
        d' = { d with code := d.code.push p } := by
  rw [appendInstruction, hOpcode]
  simp only [pure, Except.pure, bind_ok_eq_ok_iff, located_eq_ok_iff]

theorem SaysInstruction.readLine_eq_ok_iff (h : d.SaysInstruction raw labels o operands)
    (hText : d.InText) :
    d.readLine line raw = .ok d' ↔ Fresh d.defined labels ∧
      ∃ p, Pending.ofOperands o line (codeAddress d.code.size) operands = .ok p ∧
        d' = d.withInstruction labels p := by
  obtain ⟨name, hMacro, hOpcode, hName⟩ := h.instruction
  have hCode := isDataLine_eq_false (head?_ne_dot_of_mnemonic hName hOpcode)
  rw [readLine_eq_statement hText.recording h.noConstant,
    statement_eq_labelled_append hText.region hName hOpcode hMacro, bind_eq_ok_iff]
  simp only [labelled_eq_ok_iff hText.region, hCode, h.labels, appendInstruction_eq_ok_iff hOpcode,
    and_assoc, exists_and_left, exists_eq_left]
  exact Iff.rfl

theorem directive_eq_ok_iff_of_dataKind {word : Text}
    (hDirective : Line.directive? t = some (word, operands))
    (hKind : DataKind.ofName? (lowercase word) = some kind) :
    d.directive line t = .ok d' ↔ ∃ item, DataItem.ofOperands kind operands = .ok item ∧
      d' = { d with waiting := [], data := d.data.push ⟨d.waiting, item, line⟩ } := by
  simp only [directive, hDirective, Directive.ofName?_of_dataKind hKind, pure, Except.pure,
    bind_ok_eq_ok_iff, located_eq_ok_iff]

theorem SaysItem.readLine_eq_ok_iff (h : d.SaysItem raw labels kind operands)
    (hText : d.InText) :
    d.readLine line raw = .ok d' ↔ Fresh d.defined labels ∧
      ∃ item, DataItem.ofOperands kind operands = .ok item ∧ d' = d.withItem labels item line := by
  obtain ⟨word, hKind, hDirective⟩ := h.item
  have hData : isDataLine (trim (Line.labels (d.substituteConstants (said raw))).2) = true := by
    simp only [isDataLine, hDirective, hKind, Option.isSome_some]
  have hDot : (trim (Line.labels (d.substituteConstants (said raw))).2).head? = some '.' := by
    rw [(Line.directive?_eq_some_iff.mp hDirective).1]
    rfl
  rw [readLine_eq_statement hText.recording h.noConstant, statement_eq_labelled_directive hDot,
    bind_eq_ok_iff]
  simp only [labelled_eq_ok_iff hText.region, hData, h.labels,
    directive_eq_ok_iff_of_dataKind hDirective hKind, and_assoc, exists_and_left, exists_eq_left]
  exact Iff.rfl

/-! ### What such lines leave alone -/

/-- The lines in between have left alone what a line is read with. -/
structure Stays (d d' : Draft) : Prop where
  region : d'.region = d.region
  recording : d'.recording = d.recording
  constants : d'.constants = d.constants
  macros : d'.macros = d.macros
  ended : d'.ended = d.ended

theorem stays_withInstruction (d : Draft) (labels : List Text) (p : Pending) :
    d.Stays (d.withInstruction labels p) := ⟨rfl, rfl, rfl, rfl, rfl⟩

theorem stays_withItem (d : Draft) (labels : List Text) (i : DataItem) (line : Nat) :
    d.Stays (d.withItem labels i line) := ⟨rfl, rfl, rfl, rfl, rfl⟩

theorem InText.of_stays (h : d.InText) (hStays : d.Stays d') : d'.InText :=
  ⟨hStays.region.trans h.region, hStays.recording.trans h.recording⟩

theorem Stays.substituteConstants_eq (h : d.Stays d') (t : Text) :
    d'.substituteConstants t = d.substituteConstants t := by
  rw [substituteConstants, substituteConstants, h.constants]

theorem SaysInstruction.of_stays (h : d.SaysInstruction raw labels o operands)
    (hStays : d.Stays d') : d'.SaysInstruction raw labels o operands where
  noConstant := h.noConstant
  labels := by rw [hStays.substituteConstants_eq, h.labels]
  instruction := by
    rw [hStays.substituteConstants_eq, hStays.macros]
    exact h.instruction

theorem SaysItem.of_stays (h : d.SaysItem raw labels kind operands) (hStays : d.Stays d') :
    d'.SaysItem raw labels kind operands where
  noConstant := h.noConstant
  labels := by rw [hStays.substituteConstants_eq, h.labels]
  item := by
    rw [hStays.substituteConstants_eq]
    exact h.item

end Draft

end NiosBoard
