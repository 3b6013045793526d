import NiosBoard.Proofs.Assembly.FirstPass
import NiosBoard.Proofs.Assembly.SourceLines

/-! # Marks stay

A trace only grows. What a line or a statement in the middle of a source has listed is in the trace
of the whole, and so is every label that the first pass takes off the front of a statement.
-/

namespace NiosBoard

open Text

namespace Trace

variable {macros : MacroTable} {line nesting : Nat}

theorem prefix_marks_push (r : Trace) (k : Mark) : r.marks <+: (r.push k).marks :=
  List.prefix_append _ _

theorem prefix_marks_foldl {α : Type} {f : Trace → α → Trace}
    (h : ∀ r a, r.marks <+: (f r a).marks) (l : List α) (r : Trace) :
    r.marks <+: (l.foldl f r).marks := by
  induction l generalizing r with
  | nil => exact List.prefix_rfl
  | cons a l ih => exact (h r a).trans (ih (f r a))

theorem prefix_marks_label (namesData : Bool) (r : Trace) (name : Text) :
    r.marks <+: (r.label namesData name).marks := prefix_marks_push r _

theorem prefix_marks_directive (r : Trace) (line : Nat) (t : Text) :
    r.marks <+: (r.directive line t).marks := by
  unfold directive
  split
  · exact List.prefix_rfl
  · split
    · exact List.prefix_rfl
    · exact List.prefix_rfl
    · exact prefix_marks_push r _
    · exact List.prefix_rfl

/-- The labels of a statement come first, and what its body says after them. Induction on the depth
of macro calls. -/
theorem prefix_marks_labels (macros : MacroTable) (line nesting : Nat) (r : Trace) (t : Text) :
    ((Line.labels t).1.foldl (label (Draft.isDataLine (trim (Line.labels t).2))) r).marks <+:
      (r.statement macros line nesting t).marks := by
  induction nesting using Nat.strongRecOn generalizing r t with
  | ind nesting ih =>
    rw [statement.eq_def]
    dsimp only
    split
    · exact prefix_marks_directive _ line _
    split
    · exact List.prefix_rfl
    split
    · split
      · exact List.prefix_rfl
      next n =>
      split
      · exact List.prefix_rfl
      · refine prefix_marks_foldl (fun r t => ?_) _ _
        exact (prefix_marks_foldl (prefix_marks_label _) _ r).trans (ih n (Nat.lt_succ_self n) r t)
    · exact prefix_marks_push _ _

theorem prefix_marks_statement (macros : MacroTable) (line nesting : Nat) (r : Trace) (t : Text) :
    r.marks <+: (r.statement macros line nesting t).marks :=
  (prefix_marks_foldl (prefix_marks_label _) _ r).trans (prefix_marks_labels ..)

theorem prefix_marks_readLine (d : Draft) (line : Nat) (raw : Text) (r : Trace) :
    r.marks <+: (r.readLine d line raw).marks := by
  unfold readLine
  dsimp only
  split
  · exact List.prefix_rfl
  · exact prefix_marks_statement ..

theorem prefix_marks_readLines (line : Nat) (raws : List Text) (d : Draft) (r : Trace) :
    r.marks <+: (readLines line raws d r).marks := by
  induction raws generalizing line d r with
  | nil => exact List.prefix_rfl
  | cons raw raws ih =>
    rw [readLines]
    split
    · exact prefix_marks_readLine d line raw r
    split
    · exact prefix_marks_readLine d line raw r
    · exact (prefix_marks_readLine d line raw r).trans (ih ..)

theorem prefix_marks_readLines_cons (line : Nat) (raw : Text) (raws : List Text) (d : Draft)
    (r : Trace) : (r.readLine d line raw).marks <+: (readLines line (raw :: raws) d r).marks := by
  rw [readLines]
  split
  · exact List.prefix_rfl
  split
  · exact List.prefix_rfl
  · exact prefix_marks_readLines ..

theorem readLine_eq_statement {d : Draft} {raw : Text} (hRecording : d.recording = none)
    (hConstant : Draft.constantOperands? (said raw) = none) (line : Nat) (r : Trace) :
    r.readLine d line raw =
      r.statement d.macros line Draft.maxNesting (d.substituteConstants (said raw)) := by
  rw [said] at hConstant
  rw [readLine, hRecording, hConstant]
  rfl

theorem readLines_cons {raw : Text} {d d' : Draft} (h : d.readLine line raw = .ok d')
    (hRunning : d'.ended = false) (raws : List Text) (r : Trace) :
    readLines line (raw :: raws) d r = readLines (line + 1) raws d' (r.readLine d line raw) := by
  have hEnded : ¬ d'.ended = true := Bool.eq_false_iff.mp hRunning
  rw [readLines, h]
  exact if_neg hEnded

/-- The lines behind those that were read go on with the trace that these left. -/
theorem readLines_append {raws : List Text} {d d' : Draft} (h : Draft.readLines line raws d = .ok d')
    (hRunning : d'.ended = false) (more : List Text) (r : Trace) :
    readLines line (raws ++ more) d r =
      readLines (line + raws.length) more d' (readLines line raws d r) := by
  induction raws generalizing line d r with
  | nil =>
    cases h
    rfl
  | cons raw raws ih =>
    rw [Draft.readLines] at h
    obtain ⟨d₁, hLine, h⟩ := bind_eq_ok_iff.mp h
    split at h
    · next hEnded =>
      cases h
      rw [hEnded] at hRunning
      cases hRunning
    · next hEnded =>
      have hRunning₁ : d₁.ended = false := Bool.eq_false_iff.mpr hEnded
      rw [List.cons_append, readLines_cons hLine hRunning₁, readLines_cons hLine hRunning₁, ih h,
        List.length_cons, Nat.add_right_comm, Nat.add_assoc]

/-- The marks of the first lines are marks of all of them. -/
theorem prefix_marks_readLines_append (line : Nat) (raws more : List Text) (d : Draft) (r : Trace) :
    (readLines line raws d r).marks <+: (readLines line (raws ++ more) d r).marks := by
  induction raws generalizing line d r with
  | nil => exact prefix_marks_readLines line more d r
  | cons raw raws ih =>
    rw [List.cons_append, readLines, readLines]
    split
    · exact List.prefix_rfl
    split
    · exact List.prefix_rfl
    · exact ih ..

/-! ### Labels in front of a statement -/

theorem exists_mark_of_mem_labels {namesData : Bool} {labels : List Text} {name : Text}
    (h : name ∈ labels) (r : Trace) :
    ∃ k ∈ (labels.foldl (label namesData) r).marks, k.label? = some name := by
  induction labels generalizing r with
  | nil => cases h
  | cons other labels ih =>
    rcases List.mem_cons.mp h with rfl | h
    · refine ⟨if namesData || r.region = .data then .dataLabel name else .codeLabel name, ?_, ?_⟩
      · have hHere : (if namesData || r.region = .data then Mark.dataLabel name
            else .codeLabel name) ∈ (r.label namesData name).marks :=
          List.mem_append_right _ List.mem_cons_self
        exact (prefix_marks_foldl (prefix_marks_label namesData) labels _).subset hHere
      · split <;> rfl
    · exact ih h _

theorem exists_mark_of_mem_statement {t name : Text} (h : name ∈ (Line.labels t).1)
    (macros : MacroTable) (line nesting : Nat) (r : Trace) :
    ∃ k ∈ (r.statement macros line nesting t).marks, k.label? = some name := by
  obtain ⟨k, hk, hName⟩ := exists_mark_of_mem_labels h r
  exact ⟨k, (prefix_marks_labels macros line nesting r t).subset hk, hName⟩

end Trace

end NiosBoard
