import NiosBoard.Proofs.Assembly.FirstPass
import NiosBoard.Proofs.Assembly.SecondPass
import NiosBoard.Proofs.Isa.Coding

/-! # The code of an assembled program

The words of the image are the instructions of the source, in the order of its trace. Each one
decodes to what its line spells under the final symbols.
-/

namespace NiosBoard

open Text

/-- Word number `i` of the code is the instruction that the line `s` spells. -/
structure Program.Holds (p : Program) (i : Nat) (s : InstructionLine) (ins : Instruction) :
    Prop where
  mnemonic : ins.opcode.mnemonic.toList = lowercase s.name
  spells : Spells p.symbol? (4 * i) ins.opcode (splitOperands s.operands) ins
  word : p.word (4 * i) = ins.encode

section Assemble

variable {source : Text} {p : Program}

theorem assemble_eq_ok (h : assemble source = .ok p) :
    ∃ d : Draft, ∃ region is chunks placed dataEnd,
      d.Records ⟨region, trace source⟩ ∧ d.LinksTo p is chunks placed dataEnd := by
  obtain ⟨d, hSource, hLink⟩ := bind_eq_ok_iff.mp h
  obtain ⟨region, hRecords⟩ := Draft.records_of_ofSource hSource
  obtain ⟨is, chunks, placed, dataEnd, hLinks⟩ := Draft.link_eq_ok hLink
  exact ⟨d, region, is, chunks, placed, dataEnd, hRecords, hLinks⟩

theorem length_of_assemble (h : assemble source = .ok p) :
    (instructionsOf (trace source)).length = p.length := by
  obtain ⟨d, region, is, chunks, placed, dataEnd, hRecords, hLinks⟩ := assemble_eq_ok h
  rw [hLinks.length_eq_size_code, hRecords.length_code]

theorem lines_of_assemble (h : assemble source = .ok p) :
    p.lines.toList = (instructionsOf (trace source)).map (·.line) := by
  obtain ⟨d, region, is, chunks, placed, dataEnd, hRecords, hLinks⟩ := assemble_eq_ok h
  rw [hLinks.lines, Array.toList_map]
  refine List.ext_getElem? fun i => ?_
  rw [List.getElem?_map, List.getElem?_map]
  cases hs : (instructionsOf (trace source))[i]? with
  | none =>
    have hLength := hRecords.length_code
    rw [List.getElem?_eq_none_iff] at hs
    rw [List.getElem?_eq_none (by simpa [hLength] using hs)]
    rfl
  | some s =>
    obtain ⟨q, o, hq, -, hLine, -⟩ := hRecords.exists_pending hs
    rw [Array.getElem?_toList, hq]
    exact congrArg some hLine

theorem exists_holds_of_assemble (h : assemble source = .ok p) {i : Nat} {s : InstructionLine}
    (hs : (instructionsOf (trace source))[i]? = some s) : ∃ ins, p.Holds i s ins := by
  obtain ⟨d, region, is, chunks, placed, dataEnd, hRecords, hLinks⟩ := assemble_eq_ok h
  obtain ⟨q, o, hq, hName, -, hSpells⟩ := hRecords.exists_pending hs
  rw [← Array.getElem?_toList] at hq
  obtain ⟨ins, hIns, hInstruction⟩ := exists_getElem?_of_forall₂ hLinks.code hq
  have hSpells := hSpells _ ins hInstruction
  rw [← hSpells.opcode_eq] at hName hSpells
  exact ⟨ins, (Opcode.ofMnemonic?_eq_some_iff ..).mp hName, hSpells, hLinks.word_eq_encode hIns⟩

theorem size_image_of_assemble (h : assemble source = .ok p) :
    4 * p.length + 4 ≤ p.image.size := by
  obtain ⟨d, region, is, chunks, placed, dataEnd, hRecords, hLinks⟩ := assemble_eq_ok h
  rw [hLinks.size_image]
  exact Nat.le_add_right ..

theorem word_after_code_of_assemble (h : assemble source = .ok p) :
    p.word (4 * p.length) = 0 := by
  obtain ⟨d, region, is, chunks, placed, dataEnd, hRecords, hLinks⟩ := assemble_eq_ok h
  exact hLinks.word_after_code

/-- The word of every instruction decodes to what its line spells: the opcode its mnemonic names,
the registers in the fields of its syntax class, and the value of its operand under the final
symbols, reduced to its field. After the last instruction comes a zero word. -/
theorem image_decodes_to_source (h : assemble source = .ok p) :
    (instructionsOf (trace source)).length = p.length ∧
      4 * p.length + 4 ≤ p.image.size ∧
      (∀ i, i < p.length → ∃ s o ins,
        (instructionsOf (trace source))[i]? = some s ∧ p.lines[i]? = some s.line ∧
          o.mnemonic.toList = lowercase s.name ∧
          Instruction.decode (p.word (4 * i)) = .ok ins ∧
          Spells p.symbol? (4 * i) o (splitOperands s.operands) ins) ∧
      p.word (4 * p.length) = 0 := by
  refine ⟨length_of_assemble h, size_image_of_assemble h, ?_, word_after_code_of_assemble h⟩
  intro i hi
  rw [← length_of_assemble h] at hi
  have hs := List.getElem?_eq_getElem hi
  obtain ⟨ins, hHolds⟩ := exists_holds_of_assemble h hs
  refine ⟨_, ins.opcode, ins, hs, ?_, hHolds.mnemonic, ?_, hHolds.spells⟩
  · rw [← Array.getElem?_toList, lines_of_assemble h, List.getElem?_map, hs]
    rfl
  · rw [hHolds.word]
    exact Instruction.decode_encode ins

end Assemble

/-- A loop through a macro of its own, a built-in one, a branch each way and a call of a label. -/
def loopSource : Text :=
  ("start: movia sp, table\n" ++
    ".macro double dst\n slli dst, dst, 33\n .endm\n" ++
    "next: DOUBLE r4\n ldw r5, -4(sp)\n bne r4, r5, next + 4\n callr ra\n call next\n br start\n ret\n" ++
    "table: .word next\n").toList

theorem image_decodes_to_source_loopSource :
    ∃ p, assemble loopSource = .ok p ∧ p.length = 9 ∧
      (instructionsOf (trace loopSource)).length = p.length ∧
      4 * p.length + 4 ≤ p.image.size ∧
      (∀ i, i < p.length → ∃ s o ins,
        (instructionsOf (trace loopSource))[i]? = some s ∧ p.lines[i]? = some s.line ∧
          o.mnemonic.toList = lowercase s.name ∧
          Instruction.decode (p.word (4 * i)) = .ok ins ∧
          Spells p.symbol? (4 * i) o (splitOperands s.operands) ins) ∧
      p.word (4 * p.length) = 0 := by
  have hAccepted : (assemble loopSource).toOption.map (·.length) = some 9 := by decide +kernel
  obtain ⟨p, hp, hLength⟩ := exists_ok_of_map_eq hAccepted
  exact ⟨p, hp, hLength, image_decodes_to_source hp⟩

end NiosBoard
