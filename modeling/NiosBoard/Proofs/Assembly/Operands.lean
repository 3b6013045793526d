import NiosBoard.Assembly.Pending
import NiosBoard.Proofs.Except
import NiosBoard.Proofs.Word

/-! # What written operands mean

`Spells` is the reading of an operand list, one constructor for each way of writing operands: which
register goes into which field, and what the value of the operand expression is reduced by. An
instruction that the two passes build is the one its operands spell. `ReadAs` is the first pass's half
of it, which knows the registers and not yet the value.
-/

namespace NiosBoard

open Text

/-- The operand is a name of the register. -/
def Names (operand : Text) (r : RegIndex) : Prop := RegIndex.ofName? (trim operand) = some r

instance (operand : Text) (r : RegIndex) : Decidable (Names operand r) :=
  inferInstanceAs (Decidable (RegIndex.ofName? (trim operand) = some r))

/-- The expression of a memory operand; an offset that is left out is 0. -/
def offsetExpression (offset : Text) : Text := if offset = [] then ['0'] else offset

/-- The operands, in the order they are written, of the instruction at `address`. Fields that no
operand names are 0, but for the implicit return address. -/
inductive Spells (symbols : Symbols) (address : Nat) : Opcode → List Text → Instruction → Prop
  | registers {op : RegOp} {x y z : Text} {a b c : RegIndex} (hShape : op.shape = .standard)
      (hc : Names x c) (ha : Names y a) (hb : Names z b) :
      Spells symbols address (.reg op) [x, y, z] (.reg op ⟨a, b, c, 0⟩)
  | immediate {op : ImmOp} {x y z : Text} {a b : RegIndex} {v : Value} {imm : BitVec 16}
      (hShape : op.shape = .standard) (hb : Names x b) (ha : Names y a)
      (hv : Expression.evaluate symbols z = .ok v) (hImm : (imm.toNat : Int) = v.toInt % 2 ^ 16) :
      Spells symbols address (.imm op) [x, y, z] (.imm op ⟨a, b, imm⟩)
  | memory {op : ImmOp} {x y offset base : Text} {a b : RegIndex} {v : Value} {imm : BitVec 16}
      (hShape : op.shape = .memory) (hb : Names x b) (hSplit : memoryOperand? y = some (offset, base))
      (ha : Names base a) (hv : Expression.evaluate symbols (offsetExpression offset) = .ok v)
      (hImm : (imm.toNat : Int) = v.toInt % 2 ^ 16) :
      Spells symbols address (.imm op) [x, y] (.imm op ⟨a, b, imm⟩)
  | branch {cond : Condition} {x y z : Text} {a b : RegIndex} {v : Value} {imm : BitVec 16}
      (ha : Names x a) (hb : Names y b) (hv : Expression.evaluate symbols z = .ok v)
      (hImm : (imm.toNat : Int) = (v.toInt - (address + 4)) % 2 ^ 16) :
      Spells symbols address (.imm (.branch cond)) [x, y, z] (.imm (.branch cond) ⟨a, b, imm⟩)
  | br {x : Text} {v : Value} {imm : BitVec 16} (hv : Expression.evaluate symbols x = .ok v)
      (hImm : (imm.toNat : Int) = (v.toInt - (address + 4)) % 2 ^ 16) :
      Spells symbols address (.imm .br) [x] (.imm .br ⟨0, 0, imm⟩)
  | shift {op : ShiftI} {x y z : Text} {a c : RegIndex} {v : Value} {imm5 : BitVec 5}
      (hc : Names x c) (ha : Names y a) (hv : Expression.evaluate symbols z = .ok v)
      (hImm : (imm5.toNat : Int) = v.toInt % 32) :
      Spells symbols address (.reg (.shiftI op)) [x, y, z] (.reg (.shiftI op) ⟨a, 0, c, imm5⟩)
  | jmp {x : Text} {a : RegIndex} (ha : Names x a) :
      Spells symbols address (.reg .jmp) [x] (.reg .jmp ⟨a, 0, 0, 0⟩)
  | callr {x : Text} {a : RegIndex} (ha : Names x a) :
      Spells symbols address (.reg .callr) [x] (.reg .callr ⟨a, 0, 31, 0⟩)
  | ret : Spells symbols address (.reg .ret) [] (.reg .ret ⟨31, 0, 0, 0⟩)
  | nextpc {x : Text} {c : RegIndex} (hc : Names x c) :
      Spells symbols address (.reg .nextpc) [x] (.reg .nextpc ⟨0, 0, c, 0⟩)
  | jump {op : JumpOp} {x : Text} {v : Value} {index : BitVec 26}
      (hv : Expression.evaluate symbols x = .ok v)
      (hIndex : (index.toNat : Int) = v.toInt % 2 ^ 32 / 4 % 2 ^ 26) :
      Spells symbols address (.jump op) [x] (.jump op index)

theorem Spells.opcode_eq {symbols : Symbols} {address : Nat} {o : Opcode} {operands : List Text}
    {i : Instruction} (h : Spells symbols address o operands i) : i.opcode = o := by
  cases h <;> rfl

theorem Spells.operands_eq_nil {symbols : Symbols} {address : Nat} {operands : List Text}
    {i : Instruction} (h : Spells symbols address (.reg .ret) operands i) : operands = [] := by
  cases h with
  | registers hShape => cases hShape
  | ret => rfl

theorem Spells.exists_eq_jump {symbols : Symbols} {address : Nat} {op : JumpOp}
    {operands : List Text} {i : Instruction} (h : Spells symbols address (.jump op) operands i) :
    ∃ x v index, operands = [x] ∧ Expression.evaluate symbols x = .ok v ∧ i = .jump op index ∧
      (index.toNat : Int) = v.toInt % 2 ^ 32 / 4 % 2 ^ 26 := by
  cases h with
  | jump hv hIndex => exact ⟨_, _, _, rfl, hv, rfl, hIndex⟩

/-! ### The opcodes of each syntax class -/

namespace Opcode

variable {o : Opcode}

theorem exists_eq_branch_of_shape (h : o.shape = .branch) : ∃ cond, o = .imm (.branch cond) := by
  rcases o with op | op | op <;> cases op <;> cases h
  exact ⟨_, rfl⟩

theorem exists_eq_imm_of_shape (h : o.shape = .memory) : ∃ op, o = .imm op := by
  rcases o with op | op | op
  · cases h
  · exact ⟨op, rfl⟩
  · cases op <;> cases h

theorem exists_eq_shiftI_of_shape (h : o.shape = .shift) : ∃ op, o = .reg (.shiftI op) := by
  rcases o with op | op | op <;> cases op <;> cases h
  exact ⟨_, rfl⟩

theorem exists_eq_jump_of_shape (h : o.shape = .target) : ∃ op, o = .jump op := by
  rcases o with op | op | op
  · exact ⟨op, rfl⟩
  all_goals cases op <;> cases h

theorem eq_br_of_shape (h : o.shape = .branchLabel) : o = .imm .br := by
  rcases o with op | op | op <;> cases op <;> cases h
  rfl

theorem eq_jmp_or_eq_callr_of_shape (h : o.shape = .register) :
    o = .reg .jmp ∨ o = .reg .callr := by
  rcases o with op | op | op <;> cases op <;> cases h
  · exact .inl rfl
  · exact .inr rfl

theorem eq_nextpc_of_shape (h : o.shape = .destination) : o = .reg .nextpc := by
  rcases o with op | op | op <;> cases op <;> cases h
  rfl

theorem eq_ret_of_shape (h : o.shape = .noOperand) : o = .reg .ret := by
  rcases o with op | op | op <;> cases op <;> cases h
  rfl

end Opcode

/-! ### Truncation to a field -/

theorem toNat_emod_eq_toInt_emod {n : Nat} (hn : n ≤ 64) (v : Value) :
    (v.toNat : Int) % 2 ^ n = v.toInt % 2 ^ n := by
  rw [← toInt_emod_eq_toNat, Int.emod_emod_of_dvd _ (pow_dvd_pow 2 hn)]

theorem toNat_setWidth_eq_emod {n : Nat} (hn : n ≤ 64) (v : Value) :
    ((v.setWidth n).toNat : Int) = v.toInt % 2 ^ n := by
  rw [BitVec.toNat_setWidth, Int.natCast_mod, Int.natCast_pow]
  exact toNat_emod_eq_toInt_emod hn v

theorem toNat_displacement (address : Nat) (v : Value) :
    (((v - ((BitVec.ofNat 32 address).setWidth 64 + 4)).setWidth 16).toNat : Int) =
      (v.toInt - (address + 4)) % 2 ^ 16 := by
  have hValue := toInt_emod_eq_toNat v
  rw [BitVec.toNat_setWidth, BitVec.toNat_sub, BitVec.toNat_add, BitVec.toNat_setWidth,
    BitVec.toNat_ofNat, show (4 : BitVec 64).toNat = 4 from rfl]
  omega

theorem toNat_wordIndex (v : Value) :
    ((v.extractLsb' 2 26).toNat : Int) = v.toInt % 2 ^ 32 / 4 % 2 ^ 26 := by
  have hValue := toInt_emod_eq_toNat v
  rw [BitVec.extractLsb'_toNat, Nat.shiftRight_eq_div_pow]
  omega

namespace Pending

open Opcode

theorem register_eq_ok_iff {operand : Text} {r : RegIndex} :
    register operand = .ok r ↔ Names operand r := by
  unfold register Names
  cases RegIndex.ofName? (trim operand) <;> simp

theorem expression_eq_ok_iff {operand : Text} {e : Option Text} :
    expression operand = .ok e ↔ operand ≠ [] ∧ e = some operand := by
  unfold expression
  split
  · next h => simp [h]
  · next h => simp [h, eq_comm]

theorem value_of_expr_eq_some {p : Pending} {t : Text} {symbols : Symbols} {v : Value}
    (hExpr : p.expr = some t) (h : p.value symbols = .ok v) :
    Expression.evaluate symbols t = .ok v := by
  simp only [value, hExpr] at h
  split at h
  · next u hu =>
    cases h
    exact hu
  · cases h

theorem value_of_expr_eq_none {p : Pending} {symbols : Symbols} {v : Value}
    (hExpr : p.expr = none) (h : p.value symbols = .ok v) : v = 0 := by
  simp only [value, hExpr] at h
  cases h
  rfl

theorem value_of_evaluate {p : Pending} {symbols : Symbols} {t : Text} {v : Value}
    (hExpr : p.expr = some t) (h : Expression.evaluate symbols t = .ok v) :
    p.value symbols = .ok v := by
  rw [value, hExpr]
  simp only [h]

theorem instruction_of_value {p : Pending} {symbols : Symbols} {v : Value}
    (h : p.value symbols = .ok v) :
    p.instruction symbols = .ok (match p.opcode with
      | .imm op => .imm op ⟨p.a, p.b, immediate op p.address v⟩
      | .reg op => .reg op ⟨p.a, p.b, p.c, v.setWidth 5⟩
      | .jump op => .jump op (v.extractLsb' 2 26)) := by
  unfold instruction
  rw [h]
  cases p.opcode <;> rfl

/-- The finished instruction, once its operand expression has a value. -/
theorem instruction_eq_ok {p : Pending} {symbols : Symbols} {i : Instruction}
    (h : p.instruction symbols = .ok i) :
    ∃ v, p.value symbols = .ok v ∧
      i = match p.opcode with
        | .imm op => .imm op ⟨p.a, p.b, immediate op p.address v⟩
        | .reg op => .reg op ⟨p.a, p.b, p.c, v.setWidth 5⟩
        | .jump op => .jump op (v.extractLsb' 2 26) := by
  obtain ⟨v, hv, h⟩ := bind_eq_ok_iff.mp h
  refine ⟨v, hv, ?_⟩
  cases hOp : p.opcode with
  | imm op =>
    simp only [hOp] at h
    cases h
    rfl
  | reg op =>
    simp only [hOp] at h
    cases h
    rfl
  | jump op =>
    simp only [hOp] at h
    cases h
    rfl

/-! ### Reading operands -/

/-- How operands, in the order they are written, are read: the registers that they name, and the
expression that is left to the second pass. -/
inductive ReadAs (line : Nat) (address : Word) : Opcode → List Text → Pending → Prop
  | registers {op : RegOp} {x y z : Text} {a b c : RegIndex} (hShape : op.shape = .standard)
      (hc : Names x c) (ha : Names y a) (hb : Names z b) :
      ReadAs line address (.reg op) [x, y, z] ⟨.reg op, a, b, c, none, line, address⟩
  | immediate {op : ImmOp} {x y z : Text} {a b : RegIndex} (hShape : op.shape = .standard)
      (hb : Names x b) (ha : Names y a) (hz : z ≠ []) :
      ReadAs line address (.imm op) [x, y, z] ⟨.imm op, a, b, 0, some z, line, address⟩
  | memory {op : ImmOp} {x y offset base : Text} {a b : RegIndex} (hShape : op.shape = .memory)
      (hb : Names x b) (hSplit : memoryOperand? y = some (offset, base)) (ha : Names base a) :
      ReadAs line address (.imm op) [x, y]
        ⟨.imm op, a, b, 0, some (offsetExpression offset), line, address⟩
  | branch {cond : Condition} {x y z : Text} {a b : RegIndex} (ha : Names x a) (hb : Names y b)
      (hz : z ≠ []) :
      ReadAs line address (.imm (.branch cond)) [x, y, z]
        ⟨.imm (.branch cond), a, b, 0, some z, line, address⟩
  | br {x : Text} (hx : x ≠ []) :
      ReadAs line address (.imm .br) [x] ⟨.imm .br, 0, 0, 0, some x, line, address⟩
  | shift {op : ShiftI} {x y z : Text} {a c : RegIndex} (hc : Names x c) (ha : Names y a)
      (hz : z ≠ []) :
      ReadAs line address (.reg (.shiftI op)) [x, y, z]
        ⟨.reg (.shiftI op), a, 0, c, some z, line, address⟩
  | jmp {x : Text} {a : RegIndex} (ha : Names x a) :
      ReadAs line address (.reg .jmp) [x] ⟨.reg .jmp, a, 0, 0, none, line, address⟩
  | callr {x : Text} {a : RegIndex} (ha : Names x a) :
      ReadAs line address (.reg .callr) [x] ⟨.reg .callr, a, 0, 31, none, line, address⟩
  | ret : ReadAs line address (.reg .ret) [] ⟨.reg .ret, 31, 0, 0, none, line, address⟩
  | nextpc {x : Text} {c : RegIndex} (hc : Names x c) :
      ReadAs line address (.reg .nextpc) [x] ⟨.reg .nextpc, 0, 0, c, none, line, address⟩
  | jump {op : JumpOp} {x : Text} (hx : x ≠ []) :
      ReadAs line address (.jump op) [x] ⟨.jump op, 0, 0, 0, some x, line, address⟩

variable {o : Opcode} {line : Nat} {address : Word} {operands : Text} {p : Pending}

/-- An accepted list has as many operands as the shape of the opcode asks for. -/
theorem length_splitOperands_of_ofOperands (h : ofOperands o line address operands = .ok p) :
    (splitOperands operands).length = o.shape.arity := by
  unfold ofOperands at h
  split at h
  case h_10 => cases h
  all_goals
    next hShape hOperands =>
    rw [hShape, hOperands]
    rfl

section Reads

variable {x y z : Text}

theorem exists_of_register {f : RegIndex → Pending}
    (h : (do let a ← register x; return f a) = .ok p) : ∃ a, Names x a ∧ p = f a := by
  obtain ⟨a, ha, h⟩ := bind_ok_eq_ok_iff.mp h
  exact ⟨a, register_eq_ok_iff.mp ha, h⟩

theorem ne_nil_of_expression {f : Option Text → Pending}
    (h : (do let e ← expression x; return f e) = .ok p) : x ≠ [] ∧ p = f (some x) := by
  obtain ⟨e, he, rfl⟩ := bind_ok_eq_ok_iff.mp h
  obtain ⟨hx, rfl⟩ := expression_eq_ok_iff.mp he
  exact ⟨hx, rfl⟩

theorem exists_of_registers_expression {f : RegIndex → RegIndex → Option Text → Pending}
    (h : (do let a ← register x; let b ← register y; let e ← expression z; return f a b e) =
      .ok p) :
    ∃ a b, Names x a ∧ Names y b ∧ z ≠ [] ∧ p = f a b (some z) := by
  obtain ⟨a, ha, h⟩ := bind_eq_ok_iff.mp h
  obtain ⟨b, hb, h⟩ := bind_eq_ok_iff.mp h
  exact ⟨a, b, register_eq_ok_iff.mp ha, register_eq_ok_iff.mp hb, ne_nil_of_expression h⟩

end Reads

theorem readAs_of_standard_imm {op : ImmOp} (hShape : op.shape = .standard)
    (h : ofOperands (.imm op) line address operands = .ok p) :
    ReadAs line address (.imm op) (splitOperands operands) p := by
  have hLength := length_splitOperands_of_ofOperands h
  rw [Opcode.shape, hShape] at hLength
  obtain ⟨x, y, z, hOperands⟩ := List.length_eq_three.mp hLength
  rw [ofOperands, Opcode.shape, hShape, hOperands] at h
  obtain ⟨b, a, hb, ha, hz, rfl⟩ := exists_of_registers_expression h
  rw [hOperands]
  exact .immediate hShape hb ha hz

theorem readAs_of_standard_reg {op : RegOp} (hShape : op.shape = .standard)
    (h : ofOperands (.reg op) line address operands = .ok p) :
    ReadAs line address (.reg op) (splitOperands operands) p := by
  have hLength := length_splitOperands_of_ofOperands h
  rw [Opcode.shape, hShape] at hLength
  obtain ⟨x, y, z, hOperands⟩ := List.length_eq_three.mp hLength
  rw [ofOperands, Opcode.shape, hShape, hOperands] at h
  obtain ⟨c, hc, h⟩ := bind_eq_ok_iff.mp h
  obtain ⟨a, ha, h⟩ := bind_eq_ok_iff.mp h
  obtain ⟨b, hb, rfl⟩ := exists_of_register h
  rw [hOperands]
  exact .registers hShape (register_eq_ok_iff.mp hc) (register_eq_ok_iff.mp ha) hb

theorem readAs_of_branch {cond : Condition}
    (h : ofOperands (.imm (.branch cond)) line address operands = .ok p) :
    ReadAs line address (.imm (.branch cond)) (splitOperands operands) p := by
  obtain ⟨x, y, z, hOperands⟩ := List.length_eq_three.mp (length_splitOperands_of_ofOperands h)
  rw [ofOperands, hOperands] at h
  obtain ⟨a, b, ha, hb, hz, rfl⟩ := exists_of_registers_expression h
  rw [hOperands]
  exact .branch ha hb hz

theorem readAs_of_shift {op : ShiftI}
    (h : ofOperands (.reg (.shiftI op)) line address operands = .ok p) :
    ReadAs line address (.reg (.shiftI op)) (splitOperands operands) p := by
  obtain ⟨x, y, z, hOperands⟩ := List.length_eq_three.mp (length_splitOperands_of_ofOperands h)
  rw [ofOperands, hOperands] at h
  obtain ⟨c, a, hc, ha, hz, rfl⟩ := exists_of_registers_expression h
  rw [hOperands]
  exact .shift hc ha hz

theorem readAs_of_memory {op : ImmOp} (hShape : op.shape = .memory)
    (h : ofOperands (.imm op) line address operands = .ok p) :
    ReadAs line address (.imm op) (splitOperands operands) p := by
  have hLength := length_splitOperands_of_ofOperands h
  rw [Opcode.shape, hShape] at hLength
  obtain ⟨x, y, hOperands⟩ := List.length_eq_two.mp hLength
  rw [ofOperands, Opcode.shape, hShape, hOperands] at h
  obtain ⟨b, hb, h⟩ := bind_eq_ok_iff.mp h
  split at h
  · cases h
  next offset base hSplit =>
  obtain ⟨a, ha, rfl⟩ := exists_of_register h
  rw [hOperands]
  exact .memory hShape (register_eq_ok_iff.mp hb) hSplit ha

theorem readAs_of_br (h : ofOperands (.imm .br) line address operands = .ok p) :
    ReadAs line address (.imm .br) (splitOperands operands) p := by
  obtain ⟨x, hOperands⟩ := List.length_eq_one_iff.mp (length_splitOperands_of_ofOperands h)
  rw [ofOperands, hOperands] at h
  obtain ⟨hx, rfl⟩ := ne_nil_of_expression h
  rw [hOperands]
  exact .br hx

theorem readAs_of_jump {op : JumpOp} (h : ofOperands (.jump op) line address operands = .ok p) :
    ReadAs line address (.jump op) (splitOperands operands) p := by
  obtain ⟨x, hOperands⟩ := List.length_eq_one_iff.mp (length_splitOperands_of_ofOperands h)
  rw [ofOperands, hOperands] at h
  obtain ⟨hx, rfl⟩ := ne_nil_of_expression h
  rw [hOperands]
  exact .jump hx

/-- Of the two jumps to a register, one names the return address register as well. -/
theorem readAs_of_register (hShape : o.shape = .register)
    (h : ofOperands o line address operands = .ok p) :
    ReadAs line address o (splitOperands operands) p := by
  have hLength := length_splitOperands_of_ofOperands h
  rw [hShape] at hLength
  obtain ⟨x, hOperands⟩ := List.length_eq_one_iff.mp hLength
  rw [ofOperands, hShape, hOperands] at h
  obtain ⟨a, ha, rfl⟩ := exists_of_register h
  rw [hOperands]
  rcases eq_jmp_or_eq_callr_of_shape hShape with rfl | rfl
  · exact .jmp ha
  · exact .callr ha

theorem readAs_of_nextpc (h : ofOperands (.reg .nextpc) line address operands = .ok p) :
    ReadAs line address (.reg .nextpc) (splitOperands operands) p := by
  obtain ⟨x, hOperands⟩ := List.length_eq_one_iff.mp (length_splitOperands_of_ofOperands h)
  rw [ofOperands, hOperands] at h
  obtain ⟨c, hc, rfl⟩ := exists_of_register h
  rw [hOperands]
  exact .nextpc hc

theorem readAs_of_ret (h : ofOperands (.reg .ret) line address operands = .ok p) :
    ReadAs line address (.reg .ret) (splitOperands operands) p := by
  have hOperands := List.length_eq_zero_iff.mp (length_splitOperands_of_ofOperands h)
  rw [ofOperands, hOperands] at h
  cases h
  rw [hOperands]
  exact .ret

theorem readAs_of_ofOperands (h : ofOperands o line address operands = .ok p) :
    ReadAs line address o (splitOperands operands) p := by
  cases hShape : o.shape with
  | standard =>
    cases o with
    | imm op => exact readAs_of_standard_imm hShape h
    | reg op => exact readAs_of_standard_reg hShape h
    | jump op => cases hShape
  | branch =>
    obtain ⟨cond, rfl⟩ := exists_eq_branch_of_shape hShape
    exact readAs_of_branch h
  | shift =>
    obtain ⟨op, rfl⟩ := exists_eq_shiftI_of_shape hShape
    exact readAs_of_shift h
  | memory =>
    obtain ⟨op, rfl⟩ := exists_eq_imm_of_shape hShape
    exact readAs_of_memory hShape h
  | branchLabel =>
    obtain rfl := eq_br_of_shape hShape
    exact readAs_of_br h
  | target =>
    obtain ⟨op, rfl⟩ := exists_eq_jump_of_shape hShape
    exact readAs_of_jump h
  | register => exact readAs_of_register hShape h
  | destination =>
    obtain rfl := eq_nextpc_of_shape hShape
    exact readAs_of_nextpc h
  | noOperand =>
    obtain rfl := eq_ret_of_shape hShape
    exact readAs_of_ret h

theorem register_of_names {operand : Text} {r : RegIndex} (h : Names operand r) :
    register operand = .ok r := register_eq_ok_iff.mpr h

theorem expression_of_ne_nil {operand : Text} (h : operand ≠ []) :
    expression operand = .ok (some operand) := if_neg h

theorem ofOperands_of_readAs (h : ReadAs line address o (splitOperands operands) p) :
    ofOperands o line address operands = .ok p := by
  generalize hOperands : splitOperands operands = l at h
  unfold ofOperands
  rw [hOperands]
  cases h with
  | registers hShape hc ha hb =>
    simp only [Opcode.shape, hShape, Opcode.format, register_of_names hc, register_of_names ha,
      register_of_names hb]
    rfl
  | immediate hShape hb ha hz =>
    simp only [Opcode.shape, hShape, Opcode.format, register_of_names hb, register_of_names ha,
      expression_of_ne_nil hz]
    rfl
  | memory hShape hb hSplit ha =>
    simp only [Opcode.shape, hShape, register_of_names hb, hSplit, register_of_names ha]
    rfl
  | branch ha hb hz =>
    simp only [Opcode.shape, ImmOp.shape, register_of_names ha, register_of_names hb,
      expression_of_ne_nil hz]
    rfl
  | br hx =>
    simp only [Opcode.shape, ImmOp.shape, expression_of_ne_nil hx]
    rfl
  | shift hc ha hz =>
    simp only [Opcode.shape, RegOp.shape, register_of_names hc, register_of_names ha,
      expression_of_ne_nil hz]
    rfl
  | jmp ha =>
    simp only [Opcode.shape, RegOp.shape, register_of_names ha]
    rfl
  | callr ha =>
    simp only [Opcode.shape, RegOp.shape, register_of_names ha]
    rfl
  | ret => rfl
  | nextpc hc =>
    simp only [Opcode.shape, RegOp.shape, register_of_names hc]
    rfl
  | jump hx =>
    simp only [Opcode.shape, expression_of_ne_nil hx]
    rfl

/-- The first pass reads operands in one way, and says why where there is none. -/
theorem ofOperands_eq_ok_iff : ofOperands o line address operands = .ok p ↔
    ReadAs line address o (splitOperands operands) p :=
  ⟨readAs_of_ofOperands, ofOperands_of_readAs⟩

theorem ReadAs.kept {ts : List Text} (h : ReadAs line address o ts p) :
    p.opcode = o ∧ p.line = line ∧ p.address = address := by
  cases h <;> exact ⟨rfl, rfl, rfl⟩

/-- Whatever the expression comes to, the instruction is the one that the operands spell. -/
theorem ReadAs.spells {address : Nat} {ts : List Text} {symbols : Symbols} {i : Instruction}
    (h : ReadAs line (BitVec.ofNat 32 address) o ts p) (hi : p.instruction symbols = .ok i) :
    Spells symbols address o ts i := by
  obtain ⟨v, hv, rfl⟩ := instruction_eq_ok hi
  cases h with
  | registers hShape hc ha hb =>
    cases value_of_expr_eq_none rfl hv
    exact .registers hShape hc ha hb
  | immediate hShape hb ha hz =>
    refine .immediate hShape hb ha (value_of_expr_eq_some rfl hv) ?_
    simp only [Pending.immediate, hShape]
    exact toNat_setWidth_eq_emod (by decide) v
  | memory hShape hb hSplit ha =>
    refine .memory hShape hb hSplit ha (value_of_expr_eq_some rfl hv) ?_
    simp only [Pending.immediate, hShape]
    exact toNat_setWidth_eq_emod (by decide) v
  | branch ha hb hz =>
    exact .branch ha hb (value_of_expr_eq_some rfl hv) (toNat_displacement address v)
  | br hx => exact .br (value_of_expr_eq_some rfl hv) (toNat_displacement address v)
  | shift hc ha hz =>
    exact .shift hc ha (value_of_expr_eq_some rfl hv) (toNat_setWidth_eq_emod (by decide) v)
  | jmp ha =>
    cases value_of_expr_eq_none rfl hv
    exact .jmp ha
  | callr ha =>
    cases value_of_expr_eq_none rfl hv
    exact .callr ha
  | ret =>
    cases value_of_expr_eq_none rfl hv
    exact .ret
  | nextpc hc =>
    cases value_of_expr_eq_none rfl hv
    exact .nextpc hc
  | jump hx => exact .jump (value_of_expr_eq_some rfl hv) (toNat_wordIndex v)

/-- All that reading an operand list does: what the operands do not decide is kept as it was given,
and the instruction that comes of it is the one they spell. -/
theorem ofOperands_eq_ok {o : Opcode} {line address : Nat} {operands : Text} {p : Pending}
    (h : ofOperands o line (BitVec.ofNat 32 address) operands = .ok p) :
    (p.opcode = o ∧ p.line = line ∧ p.address = BitVec.ofNat 32 address) ∧
      ∀ symbols i, p.instruction symbols = .ok i →
        Spells symbols address o (splitOperands operands) i :=
  have hRead := ofOperands_eq_ok_iff.mp h
  ⟨hRead.kept, fun _ _ => hRead.spells⟩

end Pending

end NiosBoard
