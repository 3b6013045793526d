import NiosBoard.Proofs.Assembly.InstructionText
import NiosBoard.Proofs.Expression.Embedded

/-! # Lines that spell an instruction

What operands spell is all that the first pass asks of them: it reads them, and the second pass
finishes the instruction that they spell. A line of operands without blanks around them is read as
one instruction, and lines one after another as one instruction each.
-/

namespace NiosBoard

open Text

namespace Pending

variable {symbols : Symbols} {o : Opcode} {operands : Text} {ins : Instruction}

theorem eq_of_toNat_eq_emod {w : Nat} {x y : BitVec w} {k : Int} (hx : (x.toNat : Int) = k)
    (hy : (y.toNat : Int) = k) : x = y := by
  apply BitVec.eq_of_toNat_eq
  omega

theorem exists_of_spells (line : Nat) {address : Nat}
    (h : Spells symbols address o (splitOperands operands) ins) :
    ∃ p, ofOperands o line (BitVec.ofNat 32 address) operands = .ok p ∧
      p.instruction symbols = .ok ins := by
  simp only [ofOperands_eq_ok_iff]
  generalize splitOperands operands = ops at h ⊢
  cases h with
  | registers hShape hc ha hb => exact ⟨_, .registers hShape hc ha hb, rfl⟩
  | @immediate _ _ _ _ _ _ v _ hShape hb ha hv hImm =>
    refine ⟨_, .immediate hShape hb ha (Expression.ne_nil_of_evaluate hv), ?_⟩
    rw [instruction_of_value (value_of_evaluate rfl hv)]
    simp only [Pending.immediate, hShape]
    rw [eq_of_toNat_eq_emod hImm (toNat_setWidth_eq_emod (by decide) v)]
  | @memory _ _ _ _ _ _ _ v _ hShape hb hSplit ha hv hImm =>
    refine ⟨_, .memory hShape hb hSplit ha, ?_⟩
    rw [instruction_of_value (value_of_evaluate rfl hv)]
    simp only [Pending.immediate, hShape]
    rw [eq_of_toNat_eq_emod hImm (toNat_setWidth_eq_emod (by decide) v)]
  | @branch _ _ _ _ _ _ v _ ha hb hv hImm =>
    refine ⟨_, .branch ha hb (Expression.ne_nil_of_evaluate hv), ?_⟩
    rw [instruction_of_value (value_of_evaluate rfl hv)]
    simp only [Pending.immediate, ImmOp.shape]
    rw [eq_of_toNat_eq_emod hImm (toNat_displacement address v)]
  | @br _ v _ hv hImm =>
    refine ⟨_, .br (Expression.ne_nil_of_evaluate hv), ?_⟩
    rw [instruction_of_value (value_of_evaluate rfl hv)]
    simp only [Pending.immediate, ImmOp.shape]
    rw [eq_of_toNat_eq_emod hImm (toNat_displacement address v)]
  | @shift _ _ _ _ _ _ v _ hc ha hv hImm =>
    refine ⟨_, .shift hc ha (Expression.ne_nil_of_evaluate hv), ?_⟩
    rw [instruction_of_value (value_of_evaluate rfl hv),
      eq_of_toNat_eq_emod hImm (toNat_setWidth_eq_emod (by decide) v)]
  | jmp ha => exact ⟨_, .jmp ha, rfl⟩
  | callr ha => exact ⟨_, .callr ha, rfl⟩
  | ret => exact ⟨_, .ret, rfl⟩
  | nextpc hc => exact ⟨_, .nextpc hc, rfl⟩
  | @jump _ _ v _ hv hIndex =>
    refine ⟨_, .jump (Expression.ne_nil_of_evaluate hv), ?_⟩
    rw [instruction_of_value (value_of_evaluate rfl hv),
      eq_of_toNat_eq_emod hIndex (toNat_wordIndex v)]

end Pending

/-! ### Operands in a list -/

namespace Names

variable {x : Text} {r : RegIndex}

theorem chars (h : Names x r) : trim x ≠ [] ∧ ∀ c ∈ trim x, c.isAlphanum = true := by
  have hAll : RegIndex.names.all (fun n => !n.1.isEmpty && n.1.all Char.isAlphanum) = true := by
    decide +kernel
  obtain ⟨before, after, hNames, -⟩ := List.lookup_eq_some_iff.mp h
  have hName := List.all_eq_true.mp hAll (lowercase (trim x), r) (by simp [hNames])
  simp only [Bool.and_eq_true, Bool.not_eq_true', List.isEmpty_eq_false_iff, List.all_eq_true] at hName
  refine ⟨fun hNil => hName.1 (by rw [hNil]; rfl), fun c hc => ?_⟩
  exact isAlphanum_of_isAlphanum_toLower (hName.2 _ (List.mem_map_of_mem hc))

theorem isPiece (h : Names x r) (hTrim : trim x = x) : IsPiece x := by
  obtain ⟨hNonempty, hChars⟩ := h.chars
  rw [hTrim] at hNonempty hChars
  exact ⟨hNonempty, hTrim, unsplit_of_forall fun c hc => isPlain_of_isAlphanum (hChars c hc)⟩

theorem head?_commaSeparated (h : Names x r) (hTrim : trim x = x) (rest : List Text) :
    (Instruction.commaSeparated (x :: rest)).head? ≠ some ':' := by
  obtain ⟨hNonempty, hChars⟩ := h.chars
  rw [hTrim] at hNonempty hChars
  have hHead : (Instruction.commaSeparated (x :: rest)).head? = x.head? := by
    cases rest with
    | nil => rfl
    | cons y rest => exact List.head?_append_of_ne_nil _ hNonempty
  rw [hHead]
  intro hColon
  exact absurd (hChars ':' (List.mem_of_head? hColon)) (by decide)

end Names

/-! ### One line -/

/-- The line of an opcode and its operands. -/
def lineText (l : Opcode × List Text) : Text :=
  l.1.mnemonic.toList ++ ' ' :: Instruction.commaSeparated l.2

/-- The operands spell the instruction at `address`, and can be written in a list. -/
structure SpellsLine (symbols : Symbols) (address : Nat) (l : Opcode × List Text)
    (ins : Instruction) : Prop where
  spells : Spells symbols address l.1 l.2 ins
  shape : l.1.shape = .standard ∨ l.1.shape = .branch
  trimmed : ∀ t ∈ l.2, trim t = t

variable {symbols : Symbols} {address : Nat} {l : Opcode × List Text} {ins : Instruction}

namespace SpellsLine

/-- Each operand is a register or has a value. -/
theorem isPiece (h : SpellsLine symbols address l ins) : ∀ t ∈ l.2, IsPiece t := by
  obtain ⟨o, ops⟩ := l
  obtain ⟨hSpells, hShape, hTrim⟩ := h
  cases hSpells with
  | registers _ hc ha hb =>
    simp only [List.forall_mem_cons] at hTrim ⊢
    exact ⟨hc.isPiece hTrim.1, ha.isPiece hTrim.2.1, hb.isPiece hTrim.2.2.1, nofun⟩
  | immediate _ hb ha hv _ =>
    simp only [List.forall_mem_cons] at hTrim ⊢
    exact ⟨hb.isPiece hTrim.1, ha.isPiece hTrim.2.1, Expression.isPiece_of_evaluate hv hTrim.2.2.1,
      nofun⟩
  | branch ha hb hv _ =>
    simp only [List.forall_mem_cons] at hTrim ⊢
    exact ⟨ha.isPiece hTrim.1, hb.isPiece hTrim.2.1, Expression.isPiece_of_evaluate hv hTrim.2.2.1,
      nofun⟩
  | memory hMemory => simp [Opcode.shape, hMemory] at hShape
  | br | shift | jmp | callr | ret | nextpc | jump =>
    simp [Opcode.shape, ImmOp.shape, RegOp.shape] at hShape

/-- The first operand is a register. -/
theorem exists_cons (h : SpellsLine symbols address l ins) :
    ∃ x r rest, l.2 = x :: rest ∧ Names x r := by
  obtain ⟨o, ops⟩ := l
  obtain ⟨hSpells, hShape, -⟩ := h
  cases hSpells with
  | registers _ hc _ _ => exact ⟨_, _, _, rfl, hc⟩
  | immediate _ hb _ _ _ => exact ⟨_, _, _, rfl, hb⟩
  | branch ha _ _ _ => exact ⟨_, _, _, rfl, ha⟩
  | memory hMemory => simp [Opcode.shape, hMemory] at hShape
  | br | shift | jmp | callr | ret | nextpc | jump =>
    simp [Opcode.shape, ImmOp.shape, RegOp.shape] at hShape

theorem isInstructionText (h : SpellsLine symbols address l ins) :
    IsInstructionText l.1.mnemonic.toList (' ' :: Instruction.commaSeparated l.2) := by
  obtain ⟨x, r, rest, hOps, hx⟩ := h.exists_cons
  have hTrim : trim x = x := h.trimmed x (by rw [hOps]; exact List.mem_cons_self)
  refine .of_pieces h.isPiece (by rw [hOps]; exact List.cons_ne_nil x rest) ?_
  rw [hOps]
  exact hx.head?_commaSeparated hTrim rest

theorem exists_statement {d : Draft} (h : SpellsLine symbols (4 * d.code.size) l ins)
    (hMacros : d.macros = MacroTable.builtIn) (hRegion : d.region = .text) (nesting line : Nat) :
    ∃ p, d.statement nesting line (lineText l) = .ok { d with code := d.code.push p } ∧
      p.instruction symbols = .ok ins := by
  have hText := h.isInstructionText
  have hMacro : d.macros.contains l.1.mnemonic.toList = false := by
    rw [hMacros]
    exact contains_builtIn_mnemonic l.1
  have hOperands : splitOperands (' ' :: Instruction.commaSeparated l.2) = l.2 := by
    obtain ⟨x, r, rest, hOps, -⟩ := h.exists_cons
    exact Instruction.splitOperands_commaSeparated h.isPiece (by simp [hOps])
  have hSpells := h.spells
  rw [← hOperands] at hSpells
  obtain ⟨p, hp, hIns⟩ := Pending.exists_of_spells line hSpells
  refine ⟨p, ?_, hIns⟩
  rw [lineText, Draft.statement_eq_appendInstruction hText hMacro hRegion, Draft.appendInstruction,
    ofMnemonic?_mnemonic]
  simp only [Draft.codeAddress_eq, hp]
  rfl

end SpellsLine

/-! ### Lines one after another -/

/-- Line by line the operands spell these instructions, the first of which is number `i`. -/
inductive SpellsLines (symbols : Symbols) :
    Nat → List (Opcode × List Text) → List Instruction → Prop
  | nil (i : Nat) : SpellsLines symbols i [] []
  | cons {i : Nat} {l : Opcode × List Text} {ls : List (Opcode × List Text)} {ins : Instruction}
      {is : List Instruction} (h : SpellsLine symbols (4 * i) l ins)
      (hRest : SpellsLines symbols (i + 1) ls is) : SpellsLines symbols i (l :: ls) (ins :: is)

theorem SpellsLines.exists_statements {ls : List (Opcode × List Text)} {is : List Instruction}
    {d : Draft} (h : SpellsLines symbols d.code.size ls is)
    (hMacros : d.macros = MacroTable.builtIn) (hRegion : d.region = .text) (nesting line : Nat) :
    ∃ ps : List Pending,
      (ls.map lineText).foldlM (fun d t => d.statement nesting line t) d =
        .ok { d with code := d.code ++ ps.toArray } ∧
      List.Forall₂ (fun ins p => Pending.instruction p symbols = .ok ins) is ps := by
  -- each line adds one instruction, so the number of the next one is the size of the code again
  generalize hSize : d.code.size = i at h
  induction h generalizing d with
  | nil => exact ⟨[], by simp [pure, Except.pure], .nil⟩
  | cons h _ ih =>
    subst hSize
    obtain ⟨p, hStatement, hIns⟩ := h.exists_statement hMacros hRegion nesting line
    obtain ⟨ps, hRest, hFinish⟩ := ih (d := { d with code := d.code.push p }) hMacros hRegion (by simp)
    refine ⟨p :: ps, ?_, .cons hIns hFinish⟩
    rw [List.map_cons, List.foldlM_cons, hStatement]
    refine hRest.trans ?_
    simp

end NiosBoard
