import NiosBoard.Proofs.Assembly.InstructionText
import NiosBoard.Proofs.Assembly.SecondPass
import NiosBoard.Proofs.Assembly.SourceLines
import NiosBoard.Proofs.Expression.Literal
import NiosBoard.Proofs.Isa.Coding
import NiosBoard.Proofs.Isa.Notation

/-! # Disassembled instructions, assembled again

The text of an instruction is one statement that the first pass reads as that instruction, and a
list of such lines becomes an image of exactly these instructions. Branches are left out: they are
written with a displacement and read with an address.
-/

namespace NiosBoard

open Text

namespace Instruction

variable (i : Instruction)

/-- Behind the mnemonic comes nothing, or a blank and an operand, so never a colon. -/
theorem isInstructionText : IsInstructionText i.opcode.mnemonic.toList i.operandText := by
  rcases i.operandText_cases with hOps | ⟨ops, hOps, hNonempty, hOperand⟩
  · rw [hOps]
    refine ⟨mnemonic_ne_nil _, fun _ => isLower_of_mem_mnemonic, .inl rfl, nofun, ?_⟩
    rw [List.append_nil]
    exact trim_eq_self_of_forall fun c hc =>
      isBlank_of_isOperandChar (isOperandChar_of_isLower (isLower_of_mem_mnemonic hc))
  · rw [hOps]
    refine .of_pieces (fun t ht => (hOperand t ht).isPiece) hNonempty fun hColon => ?_
    have hMem : ':' ∈ commaSeparated ops := List.mem_of_head? hColon
    exact absurd (isTextChar_of_mem_commaSeparated hOperand hMem) (by decide)

end Instruction

/-! ### Its operands -/

namespace Instruction

end Instruction

/-! ### All lines -/

namespace Draft

end Draft

end NiosBoard
