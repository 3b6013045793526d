import NiosBoard.Proofs.Assembly.Expansion
import NiosBoard.Proofs.Isa.Coding
import NiosBoard.Proofs.Isa.Notation

/-! # Lines that are one instruction

A mnemonic, and operands behind a blank. The first pass finds no label in such a line, no directive
and no macro call, and takes it as the instruction it is.
-/

namespace NiosBoard

open Text

/-- The mnemonic and the operands make a line, and nothing else does. -/
structure IsInstructionText (name operands : Text) : Prop where
  nonempty : name ≠ []
  lower : ∀ c ∈ name, c.isLower = true
  blank : operands = [] ∨ ∃ rest, operands = ' ' :: rest
  noColon : (Line.skipSpaces operands).head? ≠ some ':'
  trimmed : trim (name ++ operands) = name ++ operands

namespace IsInstructionText

variable {name operands : Text}

section Parts

variable (h : IsInstructionText name operands)
include h

theorem exists_cons : ∃ c rest, name = c :: rest ∧ c.isLower = true := by
  cases hName : name with
  | nil => exact absurd hName h.nonempty
  | cons c rest => exact ⟨c, rest, rfl, h.lower c (by rw [hName]; exact List.mem_cons_self)⟩

/-- What runs over letters stops behind the mnemonic. -/
theorem split_eq {p : Char → Bool} (hLower : ∀ c, c.isLower = true → p c = true)
    (hBlank : p ' ' = false) :
    (name ++ operands).takeWhile p = name ∧ (name ++ operands).dropWhile p = operands := by
  refine takeWhile_append_eq (fun c hc => hLower c (h.lower c hc)) fun c hc => ?_
  rcases h.blank with hNil | ⟨rest, hRest⟩
  · rw [hNil] at hc
    cases hc
  · rw [hRest] at hc
    cases hc
    exact hBlank

theorem skipSpaces_eq : Line.skipSpaces (name ++ operands) = name ++ operands := by
  obtain ⟨c, rest, hName, hLower⟩ := h.exists_cons
  have hSpace : isSpace c = false := by
    have hBlank := isBlank_of_isOperandChar (isOperandChar_of_isLower hLower)
    rw [← Bool.not_eq_true] at hBlank ⊢
    exact fun hc => hBlank (isBlank_of_isSpace hc)
  rw [hName, List.cons_append, Line.skipSpaces, List.dropWhile_cons_of_neg (by simp [hSpace])]

theorem identifier?_eq : identifier? (name ++ operands) = some (name, operands) := by
  have hStart : ∀ c : Char, c.isLower = true → isIdentStart c = true := by
    intro c hc
    simp [isIdentStart, isAlpha_of_isLower hc]
  obtain ⟨hTake, hDrop⟩ :=
    h.split_eq (fun c hc => isIdentChar_of_isIdentStart (hStart c hc)) (by decide)
  obtain ⟨c, rest, hName, hLower⟩ := h.exists_cons
  have hChar := isIdentChar_of_isIdentStart (hStart c hLower)
  rw [hName, List.cons_append, List.takeWhile_cons_of_pos hChar] at hTake
  rw [hName, List.cons_append, List.dropWhile_cons_of_pos hChar] at hDrop
  rw [hName, List.cons_append, identifier?, if_pos (hStart c hLower), hTake, hDrop]

theorem label?_eq : Line.label? (name ++ operands) = none := by
  unfold Line.label?
  rw [h.skipSpaces_eq, h.identifier?_eq]
  dsimp only
  split
  · next rest hEq => exact absurd (by rw [hEq]; rfl) h.noColon
  · rfl

theorem labels_eq : Line.labels (name ++ operands) = ([], name ++ operands) := by
  rw [Line.labels]
  split
  · rfl
  · next hLabel => cases h.label?_eq.symm.trans hLabel

theorem mnemonic?_eq : Line.mnemonic? (name ++ operands) = some (name, operands) := by
  have hLetter : ∀ c : Char, c.isLower = true → (!isBlank c) = true := by
    intro c hc
    simp [isBlank_of_isOperandChar (isOperandChar_of_isLower hc)]
  obtain ⟨hTake, hDrop⟩ := h.split_eq hLetter (by decide)
  unfold Line.mnemonic?
  rw [hTake, hDrop]
  split
  · exact absurd rfl h.nonempty
  · rfl

theorem append_ne_nil : name ++ operands ≠ [] := List.append_ne_nil_of_left_ne_nil h.nonempty _

theorem head?_ne_dot : (name ++ operands).head? ≠ some '.' := by
  obtain ⟨c, rest, rfl, hLower⟩ := h.exists_cons
  rintro ⟨⟩
  exact absurd hLower (by decide)

theorem call?_eq {m : MacroTable} (hMacro : m.contains name = false) :
    m.call? (name ++ operands) = none := by
  simp [MacroTable.call?, h.labels_eq, h.trimmed, h.mnemonic?_eq, hMacro]

end Parts

/-- Operands in a list make a line behind any mnemonic. -/
theorem of_pieces {o : Opcode} {ops : List Text} (h : ∀ t ∈ ops, IsPiece t) (hOps : ops ≠ [])
    (hColon : (Instruction.commaSeparated ops).head? ≠ some ':') :
    IsInstructionText o.mnemonic.toList (' ' :: Instruction.commaSeparated ops) where
  nonempty := mnemonic_ne_nil o
  lower := fun _ => isLower_of_mem_mnemonic
  blank := .inr ⟨_, rfl⟩
  noColon := by
    rw [Line.skipSpaces, List.dropWhile_cons_of_pos (by decide)]
    cases hText : Instruction.commaSeparated ops with
    | nil => nofun
    | cons c rest =>
      have hSpace : ¬ isSpace c = true := by
        intro hc
        have hBlank := Instruction.head?_commaSeparated (c := c) h (by rw [hText]; rfl)
        rw [isBlank_of_isSpace hc] at hBlank
        cases hBlank
      rwa [List.dropWhile_cons_of_neg hSpace, ← hText]
  trimmed := by
    have hText := Instruction.commaSeparated_ne_nil h hOps
    apply trim_eq_self
    · intro c hc
      rw [List.head?_append_of_ne_nil _ (mnemonic_ne_nil o)] at hc
      exact isBlank_of_isOperandChar
        (isOperandChar_of_isLower (isLower_of_mem_mnemonic (List.mem_of_head? hc)))
    · intro c hc
      rw [List.getLast?_append_of_ne_nil _ (List.cons_ne_nil _ _),
        List.getLast?_cons_of_ne_nil hText] at hc
      exact Instruction.getLast?_commaSeparated h hc

end IsInstructionText

/-- The first pass takes the line as an instruction. -/
theorem Draft.statement_eq_appendInstruction {d : Draft} {name operands : Text}
    (h : IsInstructionText name operands) (hMacro : d.macros.contains name = false)
    (hRegion : d.region = .text) (nesting line : Nat) :
    d.statement nesting line (name ++ operands) = d.appendInstruction line name operands := by
  have hLabelled : d.labelled line (name ++ operands) = .ok d := by
    rw [labelled, h.labels_eq]
    rfl
  rw [statement_eq_leaf (h.call?_eq hMacro), leaf, hLabelled, h.labels_eq]
  simp only [h.trimmed]
  show (if name ++ operands = [] then _ else _ : Except LineError Draft) = _
  rw [if_neg h.append_ne_nil, if_neg h.head?_ne_dot, h.mnemonic?_eq]
  exact if_neg (by rw [hRegion]; exact Region.noConfusion)

/-! ### Mnemonics are not names of pseudo-instructions -/

theorem ofMnemonic?_mnemonic (o : Opcode) : Opcode.ofMnemonic? o.mnemonic.toList = some o := by
  refine (Opcode.ofMnemonic?_eq_some_iff _ _).mpr (lowercase_eq_self fun c hc => ?_).symm
  exact Char.toLower_eq_of_not_isUpper (Char.not_isUpper_of_isLower (isLower_of_mem_mnemonic hc))

theorem contains_builtIn_mnemonic (o : Opcode) :
    MacroTable.builtIn.contains o.mnemonic.toList = false := by
  have hAll : ∀ o ∈ Opcode.all, MacroTable.builtIn.contains o.mnemonic.toList = false := by
    decide +kernel
  exact hAll o (Opcode.mem_all o)

end NiosBoard
