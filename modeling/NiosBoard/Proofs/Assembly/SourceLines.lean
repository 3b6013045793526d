import NiosBoard.Proofs.Assembly.Expansion
import NiosBoard.Proofs.Text.Comments

/-! # A source line by line

What the lines in front have said is all that a line is read with. Lines that define constants, or
say nothing, leave the constants and nothing else.
-/

namespace NiosBoard

open Text

/-- The line defines a constant, or says nothing. -/
def IsDefinition (raw : Text) : Prop :=
  said raw = [] ∨ (Draft.constantOperands? (said raw)).isSome = true

namespace Draft

variable {d d' : Draft} {line : Nat} {raw : Text}

theorem statement_nil (nesting line : Nat) (d : Draft) : d.statement nesting line [] = .ok d := by
  have hLabels : Line.labels [] = ([], []) := by decide +kernel
  rw [statement, hLabels]
  rfl

theorem statement_eq_labelled_directive {t : Text}
    (hDot : (trim (Line.labels t).2).head? = some '.') (nesting line : Nat) (d : Draft) :
    d.statement nesting line t =
      d.labelled line t >>= fun d => d.directive line (trim (Line.labels t).2) := by
  have hBody : trim (Line.labels t).2 ≠ [] := by
    intro hNil
    rw [hNil] at hDot
    cases hDot
  rw [statement]
  exact bind_congr_of_ok fun d₁ _ => (if_neg hBody).trans (if_pos hDot)

theorem statement_eq_directive {t : Text} (hLabel : Line.label? t = none)
    (hDot : (trim t).head? = some '.') (nesting line : Nat) (d : Draft) :
    d.statement nesting line t = d.directive line (trim t) := by
  have hLabels : Line.labels t = ([], t) := by
    rw [Line.labels]
    split
    · rfl
    · next hSome => cases hLabel.symm.trans hSome
  rw [statement_eq_labelled_directive (by rwa [hLabels]), labelled, hLabels]
  rfl

theorem readLine_eq_statement (hRecording : d.recording = none)
    (hConstant : constantOperands? (said raw) = none) (line : Nat) :
    d.readLine line raw = d.statement maxNesting line (d.substituteConstants (said raw)) := by
  rw [said] at hConstant ⊢
  rw [readLine, hRecording]
  simp only [hConstant]

theorem readLine_eq_defineConstant (hRecording : d.recording = none) {operands : Text}
    (hConstant : constantOperands? (said raw) = some operands) (line : Nat) :
    d.readLine line raw = located line (d.defineConstant operands true) := by
  rw [said] at hConstant
  rw [readLine, hRecording]
  simp only [hConstant]

theorem readLine_eq_record {r : Recording} (hRecording : d.recording = some r) (line : Nat)
    (raw : Text) :
    d.readLine line raw =
      if Line.closesMacro (said raw) then d.closeRecording r
      else .ok { d with
        recording := some { r with body := r.body.push (d.substituteConstants (said raw)) } } := by
  rw [readLine, hRecording]
  rfl

/-- The lines behind those that were read go on with the draft that these left. -/
theorem readLines_append {raws : List Text} (h : readLines line raws d = .ok d')
    (hRunning : d'.ended = false) (more : List Text) :
    readLines line (raws ++ more) d = readLines (line + raws.length) more d' := by
  induction raws generalizing line d with
  | nil =>
    cases h
    rfl
  | cons raw raws ih =>
    rw [readLines] at h
    obtain ⟨d₁, hLine, h⟩ := bind_eq_ok_iff.mp h
    split at h
    · next hEnded =>
      cases h
      rw [hEnded] at hRunning
      cases hRunning
    · next hEnded =>
      rw [List.cons_append, readLines_cons hLine (Bool.eq_false_iff.mpr hEnded), ih h,
        List.length_cons, Nat.add_right_comm, Nat.add_assoc]

theorem readLines_singleton (line : Nat) (raw : Text) (d : Draft) :
    readLines line [raw] d = d.readLine line raw := by
  rw [readLines]
  cases d.readLine line raw with
  | error e => rfl
  | ok d' =>
    show (if d'.ended = true then .ok d' else .ok d' : Except LineError Draft) = _
    rw [ite_self]

/-- Lines behind others are read if these do not end the program. -/
theorem readLines_append_eq {raws : List Text} (hRunning : d.ended = false) (more : List Text) :
    readLines line (raws ++ more) d = readLines line raws d >>= fun d' =>
      if d'.ended then .ok d' else readLines (line + raws.length) more d' := by
  induction raws generalizing line d with
  | nil =>
    refine Eq.symm (if_neg ?_)
    rw [hRunning]
    decide
  | cons raw raws ih =>
    rw [List.cons_append, readLines, readLines, bind_assoc]
    refine bind_congr_of_ok fun d₁ _ => ?_
    split
    · next hEnded => exact (if_pos hEnded).symm
    · next hEnded =>
      rw [ih (Bool.eq_false_iff.mpr hEnded), List.length_cons, Nat.add_right_comm, Nat.add_assoc]

theorem closeRecording_eq_ok_iff {r : Recording} : d.closeRecording r = .ok d' ↔
    ∃ macros, d.macros.define r.name r.params r.body.toList = .ok macros ∧
      d' = { d with macros := macros, recording := none } := by
  rw [closeRecording]
  cases d.macros.define r.name r.params r.body.toList with
  | ok macros => simp [eq_comm]
  | error e => simp

/-- Only statements add instructions, neither definitions of constants nor lines of a macro body. -/
theorem code_eq_or_statement_of_readLine (h : d.readLine line raw = .ok d') :
    d'.code = d.code ∨
      d.statement maxNesting line (d.substituteConstants (said raw)) = .ok d' := by
  cases hRecording : d.recording with
  | none =>
    cases hConstant : constantOperands? (said raw) with
    | none =>
      rw [readLine_eq_statement hRecording hConstant] at h
      exact .inr h
    | some operands =>
      rw [readLine_eq_defineConstant hRecording hConstant] at h
      exact .inl (keeps_of_defineConstant (located_eq_ok_iff.mp h)).code
  | some r =>
    rw [readLine_eq_record hRecording] at h
    split at h
    · obtain ⟨macros, -, rfl⟩ := closeRecording_eq_ok_iff.mp h
      exact .inl rfl
    · cases h
      exact .inl rfl

theorem prefix_code_of_readLine (h : d.readLine line raw = .ok d') :
    d.code.toList <+: d'.code.toList := by
  rcases code_eq_or_statement_of_readLine h with hCode | hStatement
  · rw [hCode]
  · exact prefix_code_of_statement hStatement

/-- What relates the drafts around each line relates those around a list of lines. -/
theorem related_of_readLines {R : Draft → Draft → Prop} (hRefl : ∀ d, R d d)
    (hTrans : ∀ {d₁ d₂ d₃}, R d₁ d₂ → R d₂ d₃ → R d₁ d₃)
    (hLine : ∀ {line raw d d'}, d.readLine line raw = .ok d' → R d d') {raws : List Text}
    (h : readLines line raws d = .ok d') : R d d' := by
  induction raws generalizing line d with
  | nil =>
    cases h
    exact hRefl _
  | cons raw raws ih =>
    rw [readLines] at h
    obtain ⟨d₁, hFirst, h⟩ := bind_eq_ok_iff.mp h
    split at h
    · cases h
      exact hLine hFirst
    · exact hTrans (hLine hFirst) (ih h)

theorem prefix_code_of_readLines {raws : List Text} (h : readLines line raws d = .ok d') :
    d.code.toList <+: d'.code.toList :=
  related_of_readLines (R := fun d d' => d.code.toList <+: d'.code.toList)
    (fun _ => List.prefix_rfl) List.IsPrefix.trans prefix_code_of_readLine h

theorem eq_of_defineConstant {operands : Text} {substituted : Bool}
    (h : d.defineConstant operands substituted = .ok d') :
    d' = { d with constants := d'.constants } := by
  unfold defineConstant at h
  split at h
  · split at h
    · cases h
    split at h
    · cases h
    cases h
    rfl
  · cases h

theorem eq_of_readLine (hRecording : d.recording = none) (hDefinition : IsDefinition raw)
    (h : d.readLine line raw = .ok d') : d' = { d with constants := d'.constants } := by
  rcases hDefinition with hNothing | hConstant
  · have hNone : constantOperands? (said raw) = none := by
      rw [hNothing]
      rfl
    rw [readLine_eq_statement hRecording hNone, hNothing, substituteConstants, substitute_nil,
      statement_nil] at h
    cases h
    rfl
  · obtain ⟨operands, hOperands⟩ := Option.isSome_iff_exists.mp hConstant
    rw [said] at hOperands
    simp only [readLine, hRecording, hOperands] at h
    cases hDefine : d.defineConstant operands true with
    | error e =>
      rw [hDefine] at h
      cases h
    | ok d₁ =>
      rw [hDefine] at h
      cases h
      exact eq_of_defineConstant hDefine

theorem eq_of_readLines {raws : List Text} (hRecording : d.recording = none)
    (hDefinitions : ∀ raw ∈ raws, IsDefinition raw) (h : readLines line raws d = .ok d') :
    d' = { d with constants := d'.constants } := by
  induction raws generalizing line d with
  | nil =>
    cases h
    rfl
  | cons raw raws ih =>
    rw [List.forall_mem_cons] at hDefinitions
    rw [readLines] at h
    obtain ⟨d₁, hLine, h⟩ := bind_eq_ok_iff.mp h
    have h₁ := eq_of_readLine hRecording hDefinitions.1 hLine
    split at h
    · cases h
      exact h₁
    · have hRecording' : d₁.recording = none := by rw [h₁, hRecording]
      rw [ih hRecording' hDefinitions.2 h, h₁]

end Draft

/-! ### Sources as lists of lines -/

/-- What a draft gives at the end of its source. -/
def Draft.finish (d : Draft) : Except LineError Program :=
  match d.recording with
  | none => d.link
  | some r => .error (Cause.atLine (.expansion (.unterminated r.name)) r.line)

def assembleLines (raws : List Text) : Except LineError Program :=
  Draft.readLines 1 raws Draft.new >>= Draft.finish

theorem assemble_eq_assembleLines (source : Text) : assemble source = assembleLines (lines source) := by
  rw [assemble, Draft.ofSource, bind_assoc, assembleLines]
  refine bind_congr_of_ok fun d _ => ?_
  rw [Draft.finish]
  cases d.recording <;> rfl

end NiosBoard
