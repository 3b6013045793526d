import NiosBoard.Isa.Instruction
import NiosBoard.Proofs.Text.Numeral
import NiosBoard.Proofs.Text.Operands

/-! # Instructions in source notation

The text of an instruction is its mnemonic and an operand list, which splits into the operands it
was put together from. Operands are words of letters, digits and a sign, or an offset with a base.
-/

namespace NiosBoard

open Text

/-- The characters of register names and numerals. -/
def isWordChar (c : Char) : Bool := c.isAlphanum || c == '-'

def isOperandChar (c : Char) : Bool := isWordChar c || c == '(' || c == ')'

def isTextChar (c : Char) : Bool := isOperandChar c || c == ',' || c == ' '

theorem isOperandChar_of_isWordChar {c : Char} (h : isWordChar c = true) :
    isOperandChar c = true := by
  simp [isOperandChar, h]

theorem isTextChar_of_isOperandChar {c : Char} (h : isOperandChar c = true) :
    isTextChar c = true := by
  simp [isTextChar, h]

theorem isBlank_of_isOperandChar {c : Char} (h : isOperandChar c = true) : isBlank c = false := by
  simp only [isOperandChar, isWordChar, Bool.or_eq_true, beq_iff_eq] at h
  rcases h with ((h | rfl) | rfl) | rfl
  · exact isBlank_of_isAlphanum h
  all_goals decide

theorem isPlain_of_isWordChar {c : Char} (h : isWordChar c = true) : IsPlain c := by
  simp only [isWordChar, Bool.or_eq_true, beq_iff_eq] at h
  rcases h with h | rfl
  · exact isPlain_of_isAlphanum h
  · exact ⟨rfl, by decide, by decide, by decide⟩

/-! ### Words -/

theorem isWordChar_of_mem_digits {base n : Nat} {c : Char} (hBase : 2 ≤ base) (hBase' : base ≤ 36)
    (h : c ∈ digits base n) : isWordChar c = true := by
  have hDigit : ∀ k < 36, isWordChar (digitChar k) = true := by decide
  exact forall_mem_digits (p := fun c => isWordChar c = true) hBase
    (fun k hk => hDigit k (Nat.lt_of_lt_of_le hk hBase')) c h

theorem isWordChar_of_mem_name {i : RegIndex} {c : Char} (h : c ∈ i.name) :
    isWordChar c = true := by
  rcases List.mem_cons.mp h with rfl | h
  · decide
  · exact isWordChar_of_mem_digits (by decide) (by decide) h

theorem isWordChar_of_mem_hexadecimal {n : Nat} {c : Char} (h : c ∈ hexadecimal n) :
    isWordChar c = true := by
  rcases List.mem_cons.mp h with rfl | h
  · decide
  rcases List.mem_cons.mp h with rfl | h
  · decide
  · exact isWordChar_of_mem_digits (by decide) (by decide) h

theorem isWordChar_of_mem_intDecimal {n : Int} {c : Char} (h : c ∈ intDecimal n) :
    isWordChar c = true := by
  unfold intDecimal at h
  split at h
  · rcases List.mem_cons.mp h with rfl | h
    · decide
    · exact isWordChar_of_mem_digits (by decide) (by decide) h
  · exact isWordChar_of_mem_digits (by decide) (by decide) h

theorem intDecimal_ne_nil (n : Int) : intDecimal n ≠ [] := by
  unfold intDecimal
  split
  · simp
  · exact digits_ne_nil _ _

/-! ### Operands -/

/-- An operand that a list can be taken apart into. -/
structure IsOperand (t : Text) : Prop where
  nonempty : t ≠ []
  chars : ∀ c ∈ t, isOperandChar c = true
  unsplit : Unsplit .outside 0 t

theorem IsOperand.isPiece {t : Text} (h : IsOperand t) : IsPiece t where
  nonempty := h.nonempty
  trimmed := trim_eq_self_of_forall fun c hc => isBlank_of_isOperandChar (h.chars c hc)
  unsplit := h.unsplit

theorem IsOperand.word {t : Text} (hNonempty : t ≠ []) (h : ∀ c ∈ t, isWordChar c = true) :
    IsOperand t where
  nonempty := hNonempty
  chars := fun c hc => isOperandChar_of_isWordChar (h c hc)
  unsplit := unsplit_of_forall fun c hc => isPlain_of_isWordChar (h c hc)

theorem IsOperand.memory {offset base : Text} (hOffset : ∀ c ∈ offset, isWordChar c = true)
    (hBase : ∀ c ∈ base, isWordChar c = true) : IsOperand (offset ++ '(' :: base ++ [')']) where
  nonempty := by simp
  chars := by
    simp only [List.mem_append, List.mem_cons, List.not_mem_nil, or_false]
    rintro c ((hc | rfl | hc) | rfl)
    · exact isOperandChar_of_isWordChar (hOffset c hc)
    · decide
    · exact isOperandChar_of_isWordChar (hBase c hc)
    · decide
  unsplit := unsplit_memoryOperand (fun c hc => isPlain_of_isWordChar (hOffset c hc))
    fun c hc => isPlain_of_isWordChar (hBase c hc)

theorem IsOperand.name (i : RegIndex) : IsOperand i.name :=
  .word (List.cons_ne_nil _ _) fun _ => isWordChar_of_mem_name

theorem IsOperand.intDecimal (n : Int) : IsOperand (intDecimal n) :=
  .word (intDecimal_ne_nil n) fun _ => isWordChar_of_mem_intDecimal

namespace Instruction

theorem isOperand_of_mem_operands {i : Instruction} {t : Text} (h : t ∈ i.operands) :
    IsOperand t := by
  cases i with
  | jump op index =>
    rw [List.mem_singleton.mp h]
    exact .word (List.cons_ne_nil _ _) fun _ => isWordChar_of_mem_hexadecimal
  | imm op f =>
    unfold operands at h
    dsimp only at h
    split at h <;> simp only [List.mem_cons, List.not_mem_nil, or_false] at h
    · rcases h with rfl | rfl | rfl
      exacts [.name _, .name _, .intDecimal _]
    · rw [h]
      exact .intDecimal _
    · rcases h with rfl | rfl
      · exact .name _
      · exact .memory (fun _ => isWordChar_of_mem_intDecimal) fun _ => isWordChar_of_mem_name
    · rcases h with rfl | rfl | rfl
      exacts [.name _, .name _, .intDecimal _]
  | reg op f =>
    unfold operands at h
    dsimp only at h
    split at h <;> simp only [List.mem_cons, List.not_mem_nil, or_false] at h
    · rcases h with rfl | rfl | rfl
      · exact .name _
      · exact .name _
      · exact .word (digits_ne_nil _ _) fun _ => isWordChar_of_mem_digits (by decide) (by decide)
    · rw [h]
      exact .name _
    · rw [h]
      exact .name _
    · rcases h with rfl | rfl | rfl
      exacts [.name _, .name _, .name _]

theorem commaSeparated_cons_cons (t t' : Text) (rest : List Text) :
    commaSeparated (t :: t' :: rest) = t ++ ',' :: ' ' :: commaSeparated (t' :: rest) := rfl

theorem isTextChar_of_mem_commaSeparated {ops : List Text} {c : Char}
    (h : ∀ t ∈ ops, IsOperand t) (hc : c ∈ commaSeparated ops) : isTextChar c = true := by
  induction ops with
  | nil => cases hc
  | cons t rest ih =>
    have hHead : ∀ c ∈ t, isTextChar c = true :=
      fun c hc => isTextChar_of_isOperandChar ((h t List.mem_cons_self).chars c hc)
    cases rest with
    | nil => exact hHead c hc
    | cons t' rest =>
      rw [commaSeparated_cons_cons, List.mem_append, List.mem_cons, List.mem_cons] at hc
      rcases hc with hc | rfl | rfl | hc
      · exact hHead c hc
      · decide
      · decide
      · exact ih (fun u hu => h u (List.mem_cons_of_mem t hu)) hc

theorem head?_commaSeparated {ops : List Text} {c : Char} (h : ∀ t ∈ ops, IsPiece t)
    (hc : (commaSeparated ops).head? = some c) : isBlank c = false := by
  cases ops with
  | nil => cases hc
  | cons t rest =>
    obtain ⟨hNonempty, hTrimmed, -⟩ := h t List.mem_cons_self
    have hHead : t.head? = some c := by
      cases rest with
      | nil => exact hc
      | cons t' rest => rwa [commaSeparated_cons_cons, List.head?_append_of_ne_nil _ hNonempty] at hc
    exact (isBlank_ends_of_trim hTrimmed).1 c hHead

theorem commaSeparated_ne_nil {ops : List Text} (h : ∀ t ∈ ops, IsPiece t) (hOps : ops ≠ []) :
    commaSeparated ops ≠ [] := by
  cases ops with
  | nil => exact absurd rfl hOps
  | cons t rest =>
    cases rest with
    | nil => exact (h t List.mem_cons_self).nonempty
    | cons t' rest =>
      rw [commaSeparated_cons_cons]
      simp

theorem getLast?_commaSeparated {ops : List Text} {c : Char} (h : ∀ t ∈ ops, IsPiece t)
    (hc : (commaSeparated ops).getLast? = some c) : isBlank c = false := by
  induction ops with
  | nil => cases hc
  | cons t rest ih =>
    cases rest with
    | nil => exact (isBlank_ends_of_trim (h t List.mem_cons_self).trimmed).2 c hc
    | cons t' rest =>
      have hRest : ∀ u ∈ t' :: rest, IsPiece u := fun u hu => h u (List.mem_cons_of_mem t hu)
      have hNonempty := commaSeparated_ne_nil hRest (List.cons_ne_nil t' rest)
      refine ih hRest ?_
      rwa [commaSeparated_cons_cons, List.getLast?_append_of_ne_nil _ (List.cons_ne_nil _ _),
        List.getLast?_cons_of_ne_nil (List.cons_ne_nil _ _),
        List.getLast?_cons_of_ne_nil hNonempty] at hc

theorem trim_commaSeparated {ops : List Text} (h : ∀ t ∈ ops, IsPiece t) :
    trim (commaSeparated ops) = commaSeparated ops :=
  trim_eq_self (fun _ => head?_commaSeparated h) fun _ => getLast?_commaSeparated h

/-- Each piece comes with the blank before it. -/
theorem piecesFrom_commaSeparated {ops : List Text} (h : ∀ t ∈ ops, IsPiece t) (hOps : ops ≠ []) :
    piecesFrom .outside 0 (' ' :: commaSeparated ops) = ops.map (' ' :: ·) := by
  induction ops with
  | nil => exact absurd rfl hOps
  | cons t rest ih =>
    have hUnsplit : Unsplit .outside 0 (' ' :: t) := ⟨rfl, (h t List.mem_cons_self).unsplit⟩
    cases rest with
    | nil => exact hUnsplit.piecesFrom_eq
    | cons t' rest =>
      rw [commaSeparated_cons_cons, ← List.cons_append, hUnsplit.piecesFrom_append_comma,
        ih (fun u hu => h u (List.mem_cons_of_mem t hu)) (List.cons_ne_nil t' rest)]
      rfl

theorem splitOperands_commaSeparated {ops : List Text} (h : ∀ t ∈ ops, IsPiece t)
    (hOps : ops ≠ []) : splitOperands (' ' :: commaSeparated ops) = ops := by
  have hTrim : trim (' ' :: commaSeparated ops) ≠ [] := by
    rw [trim_cons_of_isBlank (by decide), trim_commaSeparated h]
    exact commaSeparated_ne_nil h hOps
  rw [splitOperands, if_neg hTrim, piecesFrom_commaSeparated h hOps, List.map_map]
  refine (List.map_congr_left fun t ht => ?_).trans (List.map_id ops)
  rw [Function.comp_apply, trim_cons_of_isBlank (by decide), (h t ht).trimmed]
  rfl

/-- What follows the mnemonic. -/
def operandText (i : Instruction) : Text :=
  match i.operands with
  | [] => []
  | ops => ' ' :: commaSeparated ops

end Instruction

/-! ### Mnemonics and whole texts -/

theorem isLower_of_mem_mnemonic {o : Opcode} {c : Char} (h : c ∈ o.mnemonic.toList) :
    c.isLower = true := by
  have hAll : ∀ o ∈ Opcode.all, o.mnemonic.toList.all Char.isLower = true := by decide
  exact List.all_eq_true.mp (hAll o (Opcode.mem_all o)) c h

theorem mnemonic_ne_nil (o : Opcode) : o.mnemonic.toList ≠ [] := by
  have hAll : ∀ o ∈ Opcode.all, o.mnemonic.toList ≠ [] := by decide
  exact hAll o (Opcode.mem_all o)

theorem isOperandChar_of_isLower {c : Char} (h : c.isLower = true) : isOperandChar c = true := by
  simp [isOperandChar, isWordChar, Char.isAlphanum, isAlpha_of_isLower h]

namespace Instruction

variable (i : Instruction)

theorem operandText_cases : i.operandText = [] ∨
    ∃ ops, i.operandText = ' ' :: commaSeparated ops ∧ ops ≠ [] ∧ ∀ t ∈ ops, IsOperand t := by
  have hOperand : ∀ t ∈ i.operands, IsOperand t := fun _ => isOperand_of_mem_operands
  unfold operandText
  cases hOps : i.operands with
  | nil => exact .inl rfl
  | cons t rest =>
    rw [hOps] at hOperand
    exact .inr ⟨t :: rest, rfl, List.cons_ne_nil t rest, hOperand⟩

end Instruction

end NiosBoard
