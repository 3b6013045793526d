import NiosBoard.Proofs.Machine.Loading
import NiosBoard.Proofs.Machine.Registers

/-! # Where control goes

The assembler counts a branch from the instruction after it, an absolute jump stores the address
before its target, and every step adds 4. Here the three are shown to cancel: a step from a statement
that transfers control ends on the target its operands name.
-/

namespace NiosBoard

open Text

/-- What a condition says about two words: equality, or order of the numbers they stand for. -/
def Condition.Says (cond : Condition) (a b : Word) : Prop :=
  match cond with
  | .eq => a = b
  | .ne => a ≠ b
  | .lt => a.toInt < b.toInt
  | .ge => b.toInt ≤ a.toInt
  | .ltu => a.toNat < b.toNat
  | .geu => b.toNat ≤ a.toNat

theorem Condition.holds_iff (cond : Condition) (a b : Word) :
    cond.holds a b = true ↔ cond.Says a b := by
  cases cond <;> simp [holds, Says, BitVec.slt, BitVec.ult]

/-! ### Displacements and absolute targets -/

theorem toNat_add_signExtend {pc : Word} {imm : BitVec 16} {t : Int} (hNear : -32768 ≤ t - (pc.toNat + 4))
    (hFar : t - (pc.toNat + 4) ≤ 32767) (hImm : (imm.toNat : Int) = (t - (pc.toNat + 4)) % 2 ^ 16) :
    ((pc + imm.signExtend 32).toNat : Int) = (t - 4) % 2 ^ 32 := by
  have hInt : imm.toInt = t - (pc.toNat + 4) := by
    rw [BitVec.toInt_eq_toNat_cond]
    split <;> omega
  have hWide : ((imm.signExtend 32).toNat : Int) = (t - (pc.toNat + 4)) % 2 ^ 32 := by
    rw [BitVec.signExtend, hInt, BitVec.toNat_ofInt]
    omega
  rw [BitVec.toNat_add]
  omega

theorem and_segment_eq_zero {pc : Word} (h : pc.toNat < 2 ^ 28) : pc &&& 0xf0000000 = 0 := by
  have hMask : ∀ i, i < 28 → (0xf0000000 : Word).getLsbD i = false := by decide
  refine BitVec.eq_of_getLsbD_eq fun i hi => ?_
  rw [BitVec.getLsbD_and]
  rcases Nat.lt_or_ge i 28 with hLow | hHigh
  · rw [hMask i hLow, Bool.and_false]
    exact BitVec.getLsbD_zero.symm
  · have hPow : 2 ^ 28 ≤ 2 ^ i := Nat.pow_le_pow_right (by decide) hHigh
    have hBit : pc.getLsbD i = false := Nat.testBit_lt_two_pow (Nat.lt_of_lt_of_le h hPow)
    rw [hBit, Bool.false_and]
    exact BitVec.getLsbD_zero.symm

theorem toNat_jumpTarget {pc : Word} {index : BitVec 26} {t : Int} (hPc : pc.toNat < 2 ^ 28)
    (hLow : 0 ≤ t) (hHigh : t < 2 ^ 28) (hAligned : 4 ∣ t)
    (hIndex : (index.toNat : Int) = t % 2 ^ 32 / 4 % 2 ^ 26) :
    ((Instruction.jumpTarget pc index).toNat : Int) = t := by
  have hShift : (index ++ 0#2).toNat = 4 * index.toNat := by
    rw [BitVec.toNat_append, BitVec.toNat_zero, Nat.or_zero, Nat.shiftLeft_eq, Nat.mul_comm]
  rw [Instruction.jumpTarget, and_segment_eq_zero hPc]
  show ((0#32 ||| (index ++ 0#2).setWidth 32).toNat : Int) = t
  rw [BitVec.zero_or, BitVec.toNat_setWidth, hShift]
  omega

namespace Machine

variable {m : Machine}

/-! ### What the parts of a transfer do -/

theorem bind_eq_of_ok {ε α β : Type} {x : Exec ε α} {f : α → Exec ε β} {a : α} {m' : Machine}
    (h : x m = .ok a m') : (x >>= f) m = f a m' := by
  show EStateM.bind x f m = _
  rw [EStateM.bind, h]

theorem readRegister_of_isEnabled {i : RegIndex} (h : m.registers.isEnabled i.toNat = true) :
    readRegister i m =
      .ok (m.registers.peek i.toNat) { m with registers := m.registers.touch i.toNat } := by
  rw [readRegister, RegisterFile.check_of_isEnabled h]

theorem getPc_eq (m : Machine) : getPc m = .ok m.pc m := rfl

theorem setPc_of_aligned {pc : Word} (h : pc.toNat % 4 = 0) :
    setPc pc m = .ok () { m with pc := pc } := by
  rw [setPc, if_neg (not_not_intro h)]

theorem jump_of_aligned {target : Word} (h : target.toNat % 4 = 0) :
    jump target m = .ok () { m with pc := target - 4 } := by
  have hBefore : (target - 4).toNat % 4 = 0 := by
    rw [BitVec.toNat_sub, show (4 : Word).toNat = 4 from rfl]
    omega
  rw [jump, if_neg (not_not_intro h), setPc_of_aligned hBefore]

/-- The machine with an address in the return address register. -/
def linked (m : Machine) (w : Word) : Machine :=
  let registers := m.registers.store RegIndex.returnAddress.toNat w
  let shown := registers.peek RegIndex.returnAddress.toNat
  { m with
    registers := registers
    bus := m.bus.publish (.register RegIndex.returnAddress.toNat shown) }

@[simp] theorem pc_linked (w : Word) : (m.linked w).pc = m.pc := rfl

theorem peek_linked (h : m.registers.isEnabled RegIndex.returnAddress.toNat = true) (w : Word) :
    (m.linked w).registers.peek RegIndex.returnAddress.toNat = w :=
  RegisterFile.peek_store h (by decide) (by decide) w

theorem writeRegister_returnAddress
    (h : m.registers.isEnabled RegIndex.returnAddress.toNat = true) (w : Word) :
    writeRegister RegIndex.returnAddress w m = .ok () (m.linked w) := by
  rw [writeRegister, RegisterFile.check_of_isEnabled h]
  rfl

/-! ### Executing a transfer

The program counter is left one word before the target.
-/

section Execute

variable {a b c : RegIndex} {imm : BitVec 16} {imm5 : BitVec 5}

theorem execute_branch (cond : Condition) (ha : m.registers.isEnabled a.toNat = true)
    (hb : m.registers.isEnabled b.toNat = true)
    (hSays : cond.Says (m.registers.peek a.toNat) (m.registers.peek b.toNat))
    (hAligned : (m.pc + imm.signExtend 32).toNat % 4 = 0) :
    execute (.imm (.branch cond) ⟨a, b, imm⟩) m =
      .ok () { m with
        registers := (m.registers.touch a.toNat).touch b.toNat
        pc := m.pc + imm.signExtend 32 } := by
  have hHolds := (cond.holds_iff _ _).mpr hSays
  rw [execute, bind_eq_of_ok (readRegister_of_isEnabled ha),
    bind_eq_of_ok (readRegister_of_isEnabled (by simpa using hb))]
  simp only [RegisterFile.peek_touch, hHolds, if_true]
  exact (bind_eq_of_ok (getPc_eq _)).trans (setPc_of_aligned hAligned)

theorem execute_branch_of_not (cond : Condition) (ha : m.registers.isEnabled a.toNat = true)
    (hb : m.registers.isEnabled b.toNat = true)
    (hSays : ¬ cond.Says (m.registers.peek a.toNat) (m.registers.peek b.toNat)) :
    execute (.imm (.branch cond) ⟨a, b, imm⟩) m =
      .ok () { m with registers := (m.registers.touch a.toNat).touch b.toNat } := by
  have hHolds := mt (cond.holds_iff _ _).mp hSays
  rw [execute, bind_eq_of_ok (readRegister_of_isEnabled ha),
    bind_eq_of_ok (readRegister_of_isEnabled (by simpa using hb))]
  simp only [RegisterFile.peek_touch, if_neg hHolds]
  rfl

theorem execute_br (hAligned : (m.pc + imm.signExtend 32).toNat % 4 = 0) :
    execute (.imm .br ⟨a, b, imm⟩) m = .ok () { m with pc := m.pc + imm.signExtend 32 } :=
  (bind_eq_of_ok (getPc_eq _)).trans (setPc_of_aligned hAligned)

theorem execute_jmpi {index : BitVec 26}
    (hAligned : (Instruction.jumpTarget m.pc index).toNat % 4 = 0) :
    execute (.jump .jmpi index) m =
      .ok () { m with pc := Instruction.jumpTarget m.pc index - 4 } :=
  (bind_eq_of_ok (getPc_eq _)).trans (jump_of_aligned hAligned)

theorem execute_call {index : BitVec 26}
    (hLink : m.registers.isEnabled RegIndex.returnAddress.toNat = true)
    (hAligned : (Instruction.jumpTarget m.pc index).toNat % 4 = 0) :
    execute (.jump .call index) m =
      .ok () ({ m with pc := Instruction.jumpTarget m.pc index - 4 }.linked (m.pc + 4)) := by
  rw [execute, bind_eq_of_ok (getPc_eq _), bind_eq_of_ok (jump_of_aligned hAligned)]
  refine writeRegister_returnAddress ?_ _
  exact hLink

theorem execute_jmp (ha : m.registers.isEnabled a.toNat = true)
    (hAligned : (m.registers.peek a.toNat).toNat % 4 = 0) :
    execute (.reg .jmp ⟨a, b, c, imm5⟩) m =
      .ok () { m with
        registers := m.registers.touch a.toNat
        pc := m.registers.peek a.toNat - 4 } := by
  rw [execute, bind_eq_of_ok (readRegister_of_isEnabled ha), jump_of_aligned hAligned]

/-- The operand is read before the link is written, so it may be the return address register. -/
theorem execute_callr (ha : m.registers.isEnabled a.toNat = true)
    (hLink : m.registers.isEnabled RegIndex.returnAddress.toNat = true)
    (hAligned : (m.registers.peek a.toNat).toNat % 4 = 0) :
    execute (.reg .callr ⟨a, b, c, imm5⟩) m =
      .ok () ({ m with
        registers := m.registers.touch a.toNat
        pc := m.registers.peek a.toNat - 4 }.linked (m.pc + 4)) := by
  rw [execute, bind_eq_of_ok (readRegister_of_isEnabled ha), bind_eq_of_ok (getPc_eq _),
    bind_eq_of_ok (jump_of_aligned hAligned)]
  refine writeRegister_returnAddress ?_ _
  simpa using hLink

theorem execute_ret (hLink : m.registers.isEnabled RegIndex.returnAddress.toNat = true)
    (hAligned : (m.registers.peek RegIndex.returnAddress.toNat).toNat % 4 = 0) :
    execute (.reg .ret ⟨a, b, c, imm5⟩) m =
      .ok () { m with
        registers := m.registers.touch RegIndex.returnAddress.toNat
        pc := m.registers.peek RegIndex.returnAddress.toNat - 4 } := by
  rw [execute, bind_eq_of_ok (readRegister_of_isEnabled hLink), jump_of_aligned hAligned]

end Execute

end Machine

/-! ### The target of a statement -/

/-- Whether the opcode leaves the address after it in the return address register. -/
def Opcode.links : Opcode → Bool
  | .jump .call => true
  | .reg .callr => true
  | _ => false

theorem Names.eq {operand : Text} {a b : RegIndex} (ha : Names operand a) (hb : Names operand b) :
    a = b := Option.some.inj (ha.symm.trans hb)

/-- Where a statement at `address` goes, by what its operands say and with the registers as in `r`.
The target of a branch is in reach of its 16 bits, and that of an absolute jump in the lowest
segment; all targets are word addresses, and the registers involved are enabled. -/
inductive Target (symbols : Symbols) (r : RegisterFile) (address : Nat) :
    Opcode → List Text → Int → Prop
  | taken {cond : Condition} {x y z : Text} {a b : RegIndex} {v : Value} (ha : Names x a)
      (hb : Names y b) (haEnabled : r.isEnabled a.toNat = true)
      (hbEnabled : r.isEnabled b.toNat = true) (hv : Expression.evaluate symbols z = .ok v)
      (hAligned : 4 ∣ v.toInt) (hNear : -32768 ≤ v.toInt - (address + 4))
      (hFar : v.toInt - (address + 4) ≤ 32767)
      (hSays : cond.Says (r.peek a.toNat) (r.peek b.toNat)) :
      Target symbols r address (.imm (.branch cond)) [x, y, z] v.toInt
  | notTaken {cond : Condition} {x y z : Text} {a b : RegIndex} (ha : Names x a)
      (hb : Names y b) (haEnabled : r.isEnabled a.toNat = true)
      (hbEnabled : r.isEnabled b.toNat = true)
      (hSays : ¬ cond.Says (r.peek a.toNat) (r.peek b.toNat)) :
      Target symbols r address (.imm (.branch cond)) [x, y, z] (address + 4)
  | br {x : Text} {v : Value} (hv : Expression.evaluate symbols x = .ok v)
      (hAligned : 4 ∣ v.toInt) (hNear : -32768 ≤ v.toInt - (address + 4))
      (hFar : v.toInt - (address + 4) ≤ 32767) :
      Target symbols r address (.imm .br) [x] v.toInt
  | jmpi {x : Text} {v : Value} (hv : Expression.evaluate symbols x = .ok v)
      (hAligned : 4 ∣ v.toInt) (hLow : 0 ≤ v.toInt) (hHigh : v.toInt < 2 ^ 28) :
      Target symbols r address (.jump .jmpi) [x] v.toInt
  | call {x : Text} {v : Value} (hv : Expression.evaluate symbols x = .ok v)
      (hAligned : 4 ∣ v.toInt) (hLow : 0 < v.toInt) (hHigh : v.toInt < 2 ^ 28)
      (hLink : r.isEnabled RegIndex.returnAddress.toNat = true) :
      Target symbols r address (.jump .call) [x] v.toInt
  | jmp {x : Text} {a : RegIndex} (ha : Names x a) (haEnabled : r.isEnabled a.toNat = true)
      (hAligned : (r.peek a.toNat).toNat % 4 = 0) :
      Target symbols r address (.reg .jmp) [x] (r.peek a.toNat).toNat
  | callr {x : Text} {a : RegIndex} (ha : Names x a) (haEnabled : r.isEnabled a.toNat = true)
      (hLink : r.isEnabled RegIndex.returnAddress.toNat = true)
      (hAligned : (r.peek a.toNat).toNat % 4 = 0) :
      Target symbols r address (.reg .callr) [x] (r.peek a.toNat).toNat
  | ret (hLink : r.isEnabled RegIndex.returnAddress.toNat = true)
      (hAligned : (r.peek RegIndex.returnAddress.toNat).toNat % 4 = 0) :
      Target symbols r address (.reg .ret) [] (r.peek RegIndex.returnAddress.toNat).toNat

namespace Target

variable {symbols : Symbols} {address : Nat} {o : Opcode} {operands : List Text} {t : Int}

/-- Forgetting what happened to the registers moves no target. -/
theorem resetAccess {r : RegisterFile} (h : Target symbols r address o operands t) :
    Target symbols r.resetAccess address o operands t := by
  cases h with
  | taken ha hb haEnabled hbEnabled hv hAligned hNear hFar hSays =>
    exact .taken ha hb (by simpa) (by simpa) hv hAligned hNear hFar (by simpa)
  | notTaken ha hb haEnabled hbEnabled hSays =>
    exact .notTaken ha hb (by simpa) (by simpa) (by simpa)
  | br hv hAligned hNear hFar => exact .br hv hAligned hNear hFar
  | jmpi hv hAligned hLow hHigh => exact .jmpi hv hAligned hLow hHigh
  | call hv hAligned hLow hHigh hLink => exact .call hv hAligned hLow hHigh (by simpa)
  | jmp ha haEnabled hAligned =>
    rw [← RegisterFile.peek_resetAccess] at hAligned ⊢
    exact .jmp ha (by simpa) hAligned
  | callr ha haEnabled hLink hAligned =>
    rw [← RegisterFile.peek_resetAccess] at hAligned ⊢
    exact .callr ha (by simpa) (by simpa) hAligned
  | ret hLink hAligned =>
    rw [← RegisterFile.peek_resetAccess] at hAligned ⊢
    exact .ret (by simpa) hAligned

/-- The zero word is not the word of a statement with a target. -/
theorem ne_call_zero {r : RegisterFile} {ins : Instruction}
    (h : Target symbols r address o operands t) (hSpells : Spells symbols address o operands ins) :
    ins ≠ .jump .call 0 := by
  rintro rfl
  cases hSpells with
  | jump hv hIndex =>
    cases h with
    | call hv' hAligned hLow hHigh hLink =>
      rw [hv] at hv'
      cases hv'
      have hZero : (0 : BitVec 26).toNat = 0 := rfl
      rw [hZero] at hIndex
      omega

end Target

namespace Machine

variable {m : Machine} {symbols : Symbols} {o : Opcode} {operands : List Text} {t : Int}
  {ins : Instruction}

theorem toNat_add_four {pc : Word} (h : (pc.toNat : Int) = (t - 4) % 2 ^ 32) :
    ((pc + 4).toNat : Int) = t % 2 ^ 32 := by
  rw [BitVec.toNat_add, show (4 : Word).toNat = 4 from rfl]
  omega

theorem toNat_mod_four_of_eq {pc : Word} (hAligned : 4 ∣ t)
    (h : (pc.toNat : Int) = (t - 4) % 2 ^ 32) : pc.toNat % 4 = 0 := by omega

theorem toNat_mod_four_of_dvd {pc : Word} (hAligned : 4 ∣ t) (h : (pc.toNat : Int) = t) :
    pc.toNat % 4 = 0 := by omega

/-- Executing the instruction leaves the program counter one word before `t`, the address after it
as the link if it calls, and memory alone. -/
def Lands (m : Machine) (ins : Instruction) (t : Int) : Prop :=
  ∃ m', execute ins m = .ok () m' ∧ ((m'.pc + 4).toNat : Int) = t % 2 ^ 32 ∧
    m'.memory = m.memory ∧
    (ins.opcode.links = true → m'.registers.peek RegIndex.returnAddress.toNat = m.pc + 4)

section Lands

variable {a b c : RegIndex} {imm : BitVec 16} {imm5 : BitVec 5} {index : BitVec 26}

theorem lands_branch {cond : Condition} (ha : m.registers.isEnabled a.toNat = true)
    (hb : m.registers.isEnabled b.toNat = true)
    (hSays : cond.Says (m.registers.peek a.toNat) (m.registers.peek b.toNat)) (hDvd : 4 ∣ t)
    (hNear : -32768 ≤ t - (m.pc.toNat + 4)) (hFar : t - (m.pc.toNat + 4) ≤ 32767)
    (hImm : (imm.toNat : Int) = (t - (m.pc.toNat + 4)) % 2 ^ 16) :
    m.Lands (.imm (.branch cond) ⟨a, b, imm⟩) t := by
  have hLands := toNat_add_signExtend hNear hFar hImm
  have hWord := toNat_mod_four_of_eq hDvd hLands
  exact ⟨_, execute_branch _ ha hb hSays hWord, toNat_add_four hLands, rfl, nofun⟩

theorem lands_branch_of_not {cond : Condition} (ha : m.registers.isEnabled a.toNat = true)
    (hb : m.registers.isEnabled b.toNat = true)
    (hSays : ¬ cond.Says (m.registers.peek a.toNat) (m.registers.peek b.toNat)) :
    m.Lands (.imm (.branch cond) ⟨a, b, imm⟩) (m.pc.toNat + 4) := by
  refine ⟨_, execute_branch_of_not _ ha hb hSays, toNat_add_four ?_, rfl, nofun⟩
  show (m.pc.toNat : Int) = _
  omega

theorem lands_br (hDvd : 4 ∣ t) (hNear : -32768 ≤ t - (m.pc.toNat + 4))
    (hFar : t - (m.pc.toNat + 4) ≤ 32767)
    (hImm : (imm.toNat : Int) = (t - (m.pc.toNat + 4)) % 2 ^ 16) :
    m.Lands (.imm .br ⟨a, b, imm⟩) t := by
  have hLands := toNat_add_signExtend hNear hFar hImm
  have hWord := toNat_mod_four_of_eq hDvd hLands
  exact ⟨_, execute_br hWord, toNat_add_four hLands, rfl, nofun⟩

theorem lands_jmpi (hTarget : ((Instruction.jumpTarget m.pc index).toNat : Int) = t)
    (hDvd : 4 ∣ t) : m.Lands (.jump .jmpi index) t := by
  have hWord := toNat_mod_four_of_dvd hDvd hTarget
  refine ⟨_, execute_jmpi hWord, ?_, rfl, nofun⟩
  rw [BitVec.sub_add_cancel]
  omega

theorem lands_call (hLink : m.registers.isEnabled RegIndex.returnAddress.toNat = true)
    (hTarget : ((Instruction.jumpTarget m.pc index).toNat : Int) = t) (hDvd : 4 ∣ t) :
    m.Lands (.jump .call index) t := by
  have hWord := toNat_mod_four_of_dvd hDvd hTarget
  refine ⟨_, execute_call hLink hWord, ?_, rfl, fun _ => peek_linked hLink _⟩
  rw [pc_linked, BitVec.sub_add_cancel]
  omega

theorem lands_jmp (ha : m.registers.isEnabled a.toNat = true)
    (hWord : (m.registers.peek a.toNat).toNat % 4 = 0) :
    m.Lands (.reg .jmp ⟨a, b, c, imm5⟩) (m.registers.peek a.toNat).toNat := by
  refine ⟨_, execute_jmp ha hWord, ?_, rfl, nofun⟩
  rw [BitVec.sub_add_cancel]
  omega

theorem lands_callr (ha : m.registers.isEnabled a.toNat = true)
    (hLink : m.registers.isEnabled RegIndex.returnAddress.toNat = true)
    (hWord : (m.registers.peek a.toNat).toNat % 4 = 0) :
    m.Lands (.reg .callr ⟨a, b, c, imm5⟩) (m.registers.peek a.toNat).toNat := by
  refine ⟨_, execute_callr ha hLink hWord, ?_, rfl, fun _ => peek_linked (by simpa using hLink) _⟩
  rw [pc_linked, BitVec.sub_add_cancel]
  omega

theorem lands_ret (hLink : m.registers.isEnabled RegIndex.returnAddress.toNat = true)
    (hWord : (m.registers.peek RegIndex.returnAddress.toNat).toNat % 4 = 0) :
    m.Lands (.reg .ret ⟨a, b, c, imm5⟩)
      (m.registers.peek RegIndex.returnAddress.toNat).toNat := by
  refine ⟨_, execute_ret hLink hWord, ?_, rfl, nofun⟩
  rw [BitVec.sub_add_cancel]
  omega

end Lands

/-- The instruction that the operands of a statement spell lands on the target they name. -/
theorem lands_of_target (hPc : m.pc.toNat < 2 ^ 28)
    (hSpells : Spells symbols m.pc.toNat o operands ins)
    (hTarget : Target symbols m.registers m.pc.toNat o operands t) : m.Lands ins t := by
  cases hTarget with
  | taken ha hb haEnabled hbEnabled hv hDvd hNear hFar hSays =>
    cases hSpells with
    | immediate hShape => cases hShape
    | branch ha' hb' hv' hImm =>
      cases ha.eq ha'
      cases hb.eq hb'
      cases hv.symm.trans hv'
      exact lands_branch haEnabled hbEnabled hSays hDvd hNear hFar hImm
  | notTaken ha hb haEnabled hbEnabled hSays =>
    cases hSpells with
    | immediate hShape => cases hShape
    | branch ha' hb' hv' hImm =>
      cases ha.eq ha'
      cases hb.eq hb'
      exact lands_branch_of_not haEnabled hbEnabled hSays
  | br hv hDvd hNear hFar =>
    cases hSpells with
    | br hv' hImm =>
      cases hv.symm.trans hv'
      exact lands_br hDvd hNear hFar hImm
  | jmpi hv hDvd hLow hHigh =>
    cases hSpells with
    | jump hv' hIndex =>
      cases hv.symm.trans hv'
      exact lands_jmpi (toNat_jumpTarget hPc hLow hHigh hDvd hIndex) hDvd
  | call hv hDvd hLow hHigh hLink =>
    cases hSpells with
    | jump hv' hIndex =>
      cases hv.symm.trans hv'
      exact lands_call hLink (toNat_jumpTarget hPc (Int.le_of_lt hLow) hHigh hDvd hIndex) hDvd
  | jmp ha haEnabled hWord =>
    cases hSpells with
    | jmp ha' =>
      cases ha.eq ha'
      exact lands_jmp haEnabled hWord
  | callr ha haEnabled hLink hWord =>
    cases hSpells with
    | callr ha' =>
      cases ha.eq ha'
      exact lands_callr haEnabled hLink hWord
  | ret hLink hWord =>
    cases hSpells with
    | ret => exact lands_ret hLink hWord

/-! ### Steps of a loaded program -/

namespace AboutTo

variable {source : Text} {p : Program} {i : Nat} {s : InstructionLine}

theorem exists_step_of_target (h : AboutTo source p i m)
    (hs : (instructionsOf (trace source))[i]? = some s) (hName : o.mnemonic.toList = lowercase s.name)
    (hTarget : Target p.symbol? m.registers (4 * i) o (splitOperands s.operands) t) :
    ∃ m', step m = .ok true m' ∧ m'.pc = BitVec.ofInt 32 t ∧ m'.state = .running ∧
      m'.memory = m.memory ∧
      (o.links = true → m'.registers.peek RegIndex.returnAddress.toNat = m.pc + 4) := by
  obtain ⟨ins, hHolds⟩ := exists_holds_of_assemble h.assembled hs
  have hOpcode := Opcode.mnemonic_injective (hHolds.mnemonic.trans hName.symm)
  have hSpells := hHolds.spells
  have hNonzero := hTarget.ne_call_zero (hOpcode ▸ hSpells)
  have hFits := h.add_four_le_ramSize
  have hSize : Board.ramSize = 1048576 := rfl
  rw [hOpcode, ← h.toNat_pc] at hSpells
  rw [← h.toNat_pc] at hTarget
  obtain ⟨m', hExecute, hPc, hMemory, hLinks⟩ :=
    lands_of_target (m := { m with registers := m.registers.resetAccess })
      (by rw [h.toNat_pc]; omega) hSpells hTarget.resetAccess
  rw [hSpells.opcode_eq] at hLinks
  refine ⟨m'.advance, ?_, ?_, rfl, hMemory, hLinks⟩
  · rw [h.step_eq_stepInstruction hHolds.word hNonzero, stepInstruction, hExecute]
  refine BitVec.eq_of_toNat_eq ?_
  show (m'.pc + 4).toNat = (BitVec.ofInt 32 t).toNat
  rw [BitVec.toNat_ofInt]
  omega

/-- A return goes to the link, which is never zero. -/
theorem exists_step_ret {w : Word} (h : AboutTo source p i m)
    (hs : (instructionsOf (trace source))[i]? = some s)
    (hName : (Opcode.reg .ret).mnemonic.toList = lowercase s.name)
    (hLink : m.registers.peek RegIndex.returnAddress.toNat = w) (hNonzero : w ≠ 0)
    (hAligned : w.toNat % 4 = 0) : ∃ m', step m = .ok true m' ∧ m'.pc = w := by
  subst hLink
  have hEnabled := RegisterFile.isEnabled_of_peek_ne_zero hNonzero
  have hOperands : splitOperands s.operands = [] := by
    obtain ⟨ins, hHolds⟩ := exists_holds_of_assemble h.assembled hs
    have hSpells := hHolds.spells
    rw [Opcode.mnemonic_injective (hHolds.mnemonic.trans hName.symm)] at hSpells
    exact hSpells.operands_eq_nil
  obtain ⟨m', hStep, hPc, -⟩ :=
    h.exists_step_of_target hs hName (hOperands ▸ Target.ret hEnabled hAligned)
  refine ⟨m', hStep, ?_⟩
  rw [hPc, BitVec.ofInt_natCast, BitVec.ofNat_toNat, BitVec.setWidth_eq]

end AboutTo

/-- A step from a statement that transfers control ends on its target and leaves memory alone. A call
links the address after it, and from any return that finds this link a step goes back there. -/
theorem control_lands_on_target {source : Text} {p : Program} {i : Nat} {s : InstructionLine}
    (h : AboutTo source p i m) (hs : (instructionsOf (trace source))[i]? = some s)
    (hName : o.mnemonic.toList = lowercase s.name)
    (hTarget : Target p.symbol? m.registers (4 * i) o (splitOperands s.operands) t) :
    ∃ m', step m = .ok true m' ∧ m'.pc = BitVec.ofInt 32 t ∧ m'.state = .running ∧
      m'.memory = m.memory ∧
      (o.links = true →
        m'.registers.peek RegIndex.returnAddress.toNat = m.pc + 4 ∧
        ∀ j m₁ r, AboutTo source p j m₁ → (instructionsOf (trace source))[j]? = some r →
          (Opcode.reg .ret).mnemonic.toList = lowercase r.name →
          m₁.registers.peek RegIndex.returnAddress.toNat =
            m'.registers.peek RegIndex.returnAddress.toNat →
          ∃ m₂, step m₁ = .ok true m₂ ∧ m₂.pc = m.pc + 4) := by
  obtain ⟨m', hStep, hPc, hState, hMemory, hLinks⟩ := h.exists_step_of_target hs hName hTarget
  refine ⟨m', hStep, hPc, hState, hMemory, fun hCall => ⟨hLinks hCall, ?_⟩⟩
  intro j m₁ r hReturn hr hRet hKept
  rw [hLinks hCall] at hKept
  have hFits := h.add_four_le_ramSize
  have hSize : Board.ramSize = 1048576 := rfl
  have hNext : (m.pc + 4).toNat = 4 * i + 4 := by
    rw [BitVec.toNat_add, h.toNat_pc, show (4 : Word).toNat = 4 from rfl]
    omega
  refine hReturn.exists_step_ret hr hRet hKept ?_ (by omega)
  intro hZero
  rw [hZero] at hNext
  exact absurd hNext (by simp)

/-- A call of a subroutine that only returns. -/
def subroutineSource : Text := "call next\nnext: ret\n".toList

theorem control_lands_on_target_subroutineSource :
    ∃ p, ∃ m₀ m₁ m₂ : Machine, AboutTo subroutineSource p 0 m₀ ∧ step m₀ = .ok true m₁ ∧
      m₁.pc = 4 ∧ m₁.registers.peek RegIndex.returnAddress.toNat = 4 ∧
      AboutTo subroutineSource p 1 m₁ ∧ step m₁ = .ok true m₂ ∧ m₂.pc = 4 := by
  have hAccepted : (assemble subroutineSource).toOption.map (fun p =>
      (p.length, p.image.size, (Expression.evaluate p.symbol? "next".toList).toOption)) =
        some (2, 12, some 4) := by decide +kernel
  obtain ⟨p, hp, hFacts⟩ := exists_ok_of_map_eq hAccepted
  simp only [Prod.mk.injEq] at hFacts
  obtain ⟨hLength, hSize, hNext⟩ := hFacts
  have hLines : (instructionsOf (trace subroutineSource)).map (fun s =>
      (lowercase s.name, splitOperands s.operands)) =
        [((Opcode.jump .call).mnemonic.toList, ["next".toList]),
          ((Opcode.reg .ret).mnemonic.toList, [])] := by decide +kernel
  obtain ⟨s₀, lines, hLines₀, hCall, hLines⟩ := List.map_eq_cons_iff.mp hLines
  obtain ⟨s₁, lines, rfl, hRet, -⟩ := List.map_eq_cons_iff.mp hLines
  rw [Prod.mk.injEq] at hCall hRet
  have hFits : p.image.size ≤ Board.ramSize := by
    rw [hSize]
    decide
  have hTarget : Target p.symbol? (new.loaded p 0).registers (4 * 0) (.jump .call)
      (splitOperands s₀.operands) (4 : Value).toInt := by
    have hLink : (RegisterFile.new.clear.store RegIndex.stackPointer.toNat
        Board.stackTop).resetAccess.isEnabled RegIndex.returnAddress.toNat = true := by
      decide +kernel
    rw [hCall.2]
    exact .call (toOption_eq_some_iff.mp hNext) (by decide) (by decide) (by decide) hLink
  have h₀ : AboutTo subroutineSource p 0 (new.loaded p 0) :=
    aboutTo_loaded .refl hp hFits (by omega)
  obtain ⟨m₁, hStep, hPc, hState, hMemory, hLinks⟩ :=
    control_lands_on_target h₀ (by rw [hLines₀]; rfl) hCall.1.symm hTarget
  obtain ⟨hLink, hReturns⟩ := hLinks rfl
  have h₁ : AboutTo subroutineSource p 1 m₁ := by
    refine ⟨hp, h₀.loaded.leads (.step .refl hStep), ?_, by omega, hPc, ?_⟩
    · rw [hState]
      nofun
    · rw [hMemory, hPc]
      exact peek_loaded 0 .refl hFits (by rw [hSize]; decide)
  obtain ⟨m₂, hStep', hPc'⟩ :=
    hReturns 1 m₁ s₁ h₁ (by rw [hLines₀]; rfl) hRet.1.symm rfl
  exact ⟨p, _, m₁, m₂, h₀, hStep, hPc, hLink, h₁, hStep', hPc'⟩

end Machine

end NiosBoard
