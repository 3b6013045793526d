import NiosBoard.Proofs.Isa.Notation
import NiosBoard.Proofs.Machine.PseudoImmediates
import NiosBoard.Proofs.Machine.RegisterArithmetic

/-! # The immediate that is shown is the one that is used

Whether the 16 bits of an immediate are read as signed is decided twice: where an instruction is
shown, and where it is executed. Here both readings are the same number, for every opcode that takes
an operand register, an immediate and another register.
-/

namespace NiosBoard

open Text

/-! ### What is shown -/

/-- The operands of the instruction, as it is written out, if its immediate is `n`. -/
def ImmOp.operandsWith (op : ImmOp) (f : ImmFields) (n : Int) : List Text :=
  match op.shape with
  | .memory => [f.b.name, intDecimal n ++ '(' :: f.a.name ++ [')']]
  | _ => [f.b.name, f.a.name, intDecimal n]

/-- The instruction is written out with the immediate `n`. -/
def ImmOp.Shows (op : ImmOp) (f : ImmFields) (n : Int) : Prop :=
  (Instruction.imm op f).text =
    op.mnemonic.toList ++ ' ' :: Instruction.commaSeparated (op.operandsWith f n)

theorem ImmOp.operandsWith_injective (op : ImmOp) (f : ImmFields) :
    Function.Injective fun n => Instruction.commaSeparated (op.operandsWith f n) := by
  intro n k h
  apply intDecimal_injective
  dsimp only [operandsWith] at h
  split at h <;> simpa [Instruction.commaSeparated] using h

theorem ImmOp.shows_iff {op : ImmOp} (hShape : op.shape = .standard ∨ op.shape = .memory)
    (f : ImmFields) (n : Int) :
    op.Shows f n ↔ n = Instruction.shownImmediate op f.imm := by
  have hText : (Instruction.imm op f).text = op.mnemonic.toList ++ ' ' ::
      Instruction.commaSeparated (op.operandsWith f (Instruction.shownImmediate op f.imm)) := by
    rw [Instruction.text, Instruction.operands, operandsWith]
    rcases hShape with hShape | hShape <;> rw [hShape] <;> rfl
  rw [Shows, hText, List.append_cancel_left_eq, List.cons.injEq]
  constructor
  · rintro ⟨-, h⟩
    exact (op.operandsWith_injective f h).symm
  · rintro rfl
    exact ⟨rfl, rfl⟩

/-! ### What is used -/

/-- What arithmetic on a word and the number `n` gives. -/
def ArithI.Says (op : ArithI) (x : Word) (n : Int) (w : Word) : Prop :=
  match op with
  | .addi => (w.toNat : Int) = (x.toNat + n) % 2 ^ 32
  | .muli => (w.toNat : Int) = x.toNat * n % 2 ^ 32
  | .andi => ∃ k : Nat, n = k ∧ w.toNat = x.toNat &&& k
  | .ori => ∃ k : Nat, n = k ∧ w.toNat = x.toNat ||| k
  | .xori => ∃ k : Nat, n = k ∧ w.toNat = x.toNat ^^^ k
  | .andhi => ∃ k : Nat, n = k ∧ w.toNat = x.toNat &&& (k * 2 ^ 16)
  | .orhi => ∃ k : Nat, n = k ∧ w.toNat = x.toNat ||| (k * 2 ^ 16)
  | .xorhi => ∃ k : Nat, n = k ∧ w.toNat = x.toNat ^^^ (k * 2 ^ 16)

theorem toNat_upper_eq_mul (f : ImmFields) : f.upper.toNat = f.imm.toNat * 2 ^ 16 :=
  (toNat_upper f).trans (Nat.mul_comm _ _)

theorem toNat_add_signed (x : Word) (f : ImmFields) :
    ((x + f.signed).toNat : Int) = (x.toNat + f.imm.toInt) % 2 ^ 32 := by
  have hOperand := toNat_operand_signed f
  rw [BitVec.toNat_add]
  omega

theorem ArithI.says_eval (op : ArithI) (x : Word) (f : ImmFields) :
    op.Says x (Instruction.shownImmediate (.arith op) f.imm) (op.eval x f) := by
  have hSigned : f.imm.toInt % 2 ^ 32 = f.signed.toNat := (toNat_operand_signed f).symm
  cases op with
  | addi => exact toNat_add_signed x f
  | muli =>
    have hx : (x.toNat : Int) % 2 ^ 32 = x.toNat := Int.emod_eq_of_lt (by omega) (by omega)
    exact toNat_mul_eq_emod hx hSigned
  | andi => exact ⟨_, rfl, by rw [eval, BitVec.toNat_and, toNat_operand_unsigned]⟩
  | ori => exact ⟨_, rfl, by rw [eval, BitVec.toNat_or, toNat_operand_unsigned]⟩
  | xori => exact ⟨_, rfl, by rw [eval, BitVec.toNat_xor, toNat_operand_unsigned]⟩
  | andhi => exact ⟨_, rfl, by rw [eval, BitVec.toNat_and, toNat_upper_eq_mul]⟩
  | orhi => exact ⟨_, rfl, by rw [eval, BitVec.toNat_or, toNat_upper_eq_mul]⟩
  | xorhi => exact ⟨_, rfl, by rw [eval, BitVec.toNat_xor, toNat_upper_eq_mul]⟩

/-- What a condition says about a word and a number. -/
def Condition.SaysInt (cond : Condition) (x : Word) (n : Int) : Prop :=
  match cond with
  | .eq => x.toInt = n
  | .ne => x.toInt ≠ n
  | .lt => x.toInt < n
  | .ge => n ≤ x.toInt
  | .ltu => x.toNat < n
  | .geu => n ≤ x.toNat

instance (cond : Condition) (x : Word) (n : Int) : Decidable (cond.SaysInt x n) :=
  match cond with
  | .eq => inferInstanceAs (Decidable (x.toInt = n))
  | .ne => inferInstanceAs (Decidable (x.toInt ≠ n))
  | .lt => inferInstanceAs (Decidable (x.toInt < n))
  | .ge => inferInstanceAs (Decidable (n ≤ x.toInt))
  | .ltu => inferInstanceAs (Decidable ((x.toNat : Int) < n))
  | .geu => inferInstanceAs (Decidable (n ≤ x.toNat))

theorem Condition.saysInt_iff_holds (cond : Condition) (x : Word) (f : ImmFields) :
    cond.SaysInt x (Instruction.shownImmediate (.compare cond) f.imm) ↔
      cond.holds x (cond.operand f) = true := by
  have hSigned := toInt_operand_signed f
  have hUnsigned := toNat_operand_unsigned f
  have hEq : x.toInt = f.imm.toInt ↔ x = f.signed := hSigned ▸ BitVec.toInt_inj
  rw [holds_iff]
  cases cond with
  | eq => exact hEq
  | ne => exact not_congr hEq
  | lt =>
    show x.toInt < f.imm.toInt ↔ x.toInt < f.signed.toInt
    rw [hSigned]
  | ge =>
    show f.imm.toInt ≤ x.toInt ↔ f.signed.toInt ≤ x.toInt
    rw [hSigned]
  | ltu => exact Int.ofNat_lt.trans (hUnsigned ▸ Iff.rfl)
  | geu => exact Int.ofNat_le.trans (hUnsigned ▸ Iff.rfl)

theorem Condition.flag_holds (cond : Condition) (x : Word) (f : ImmFields) :
    flag (cond.holds x (cond.operand f)) =
      if cond.SaysInt x (Instruction.shownImmediate (.compare cond) f.imm) then 1 else 0 := by
  rw [flag]
  simp only [saysInt_iff_holds]

/-- How the number that was loaded is extended to a register. -/
def LoadKind.Extends (kind : LoadKind) (v w : Word) : Prop :=
  match kind with
  | .b => w.toInt = Int.bmod v.toNat (2 ^ 8)
  | .h => w.toInt = Int.bmod v.toNat (2 ^ 16)
  | _ => w.toNat = v.toNat

theorem LoadKind.extends_extend (kind : LoadKind) (v : Word) : kind.Extends v (kind.extend v) := by
  cases kind with
  | b =>
    rw [Extends, extend, BitVec.toInt_signExtend_of_le (by decide), BitVec.toInt_setWidth]
  | h =>
    rw [Extends, extend, BitVec.toInt_signExtend_of_le (by decide), BitVec.toInt_setWidth]
  | bu => rfl
  | hu => rfl
  | w => rfl

/-! ### Accesses -/

namespace Memory

variable {m m' : Memory} {width : Width} {address v : Word}

/-- A read gives no more bytes than it was asked for. -/
theorem toNat_lt_of_read_eq_ok (h : m.read width address = .ok (v, m')) :
    v.toNat < 2 ^ (8 * width.bytes) := by
  unfold read at h
  split at h
  · cases h
  · cases h
    have hSpelled := spelled_lt (m.fetchAll (accessed address width.bytes)).1
    rw [length_fetchAll, accessed, List.length_map, List.length_range] at hSpelled
    exact Nat.lt_of_le_of_lt ((toNat_ofBytes _).trans_le (Nat.mod_le _ _)) hSpelled

theorem write_congr {x y : Word}
    (h : x.toNat % 2 ^ (8 * width.bytes) = y.toNat % 2 ^ (8 * width.bytes)) :
    m.write width address x = m.write width address y := by
  rw [write, write, stores, stores, littleEndian_congr h]

end Memory

namespace Machine

/-! ### Executing -/

/-- The instruction succeeds and leaves `memory`, and `w` in register `c` unless that is register 0.
Nothing else changes but what happened to registers, and events. -/
def Leaves (m : Machine) (i : Instruction) (memory : Memory) (c : RegIndex) (w : Word) : Prop :=
  ∃ m', execute i m = .ok () m' ∧ (c ≠ 0 → m'.registers.peek c.toNat = w) ∧
    Wrote { m with memory := memory } m' c w

/-- The instruction fails with a fault of memory, and writes nothing. -/
def FaultsAt (m : Machine) (i : Instruction) (e : MemoryError) : Prop :=
  ∃ m', execute i m = .error (.memory e) m' ∧ Unmoved m m'

/-- What the instruction makes of its registers with `n` as its immediate. A load or store whose
access fails fails with it. -/
def Uses (m : Machine) (op : ImmOp) (f : ImmFields) (n : Int) : Prop :=
  let x := m.registers.peek f.a.toNat
  match op with
  | .arith o => ∃ w, o.Says x n w ∧ m.Leaves (.imm op f) m.memory f.b w
  | .compare cond => m.Leaves (.imm op f) m.memory f.b (if cond.SaysInt x n then 1 else 0)
  | .load kind _ => ∃ address : Word, (address.toNat : Int) = (x.toNat + n) % 2 ^ 32 ∧
    match m.memory.read kind.width address with
    | .error e => m.FaultsAt (.imm op f) e
    | .ok (v, memory) =>
      v.toNat < 2 ^ (8 * kind.width.bytes) ∧
        ∃ w, kind.Extends v w ∧ m.Leaves (.imm op f) memory f.b w
  | .store width _ => ∃ address v : Word, (address.toNat : Int) = (x.toNat + n) % 2 ^ 32 ∧
    v.toNat = (m.registers.peek f.b.toNat).toNat % 2 ^ (8 * width.bytes) ∧
    match m.memory.write width address v with
    | .error e => m.FaultsAt (.imm op f) e
    | .ok (memory, _) => m.Leaves (.imm op f) memory 0 0
  | _ => False

section Uses

variable {m : Machine} {f : ImmFields}

theorem leaves_of_wrote {i : Instruction} {c : RegIndex} {w : Word}
    (h : ∃ m', execute i m = .ok () m' ∧ Wrote m m' c w) : m.Leaves i m.memory c w := by
  obtain ⟨m', hExecute, hWrote⟩ := h
  exact ⟨m', hExecute, fun hc => by rw [hWrote.peek, if_pos ⟨rfl, hc⟩], hWrote⟩

theorem faultsAt_of_execute {i : Instruction} {m' : Machine} {e : MemoryError}
    (hLink : linkTarget? m i = none) (h : execute i m = .error (.memory e) m') : m.FaultsAt i e :=
  ⟨m', h, execute_onError i hLink m (.refl m) _ m' h⟩

theorem effectiveAddress_of_isEnabled (ha : m.registers.isEnabled f.a.toNat = true) :
    effectiveAddress f m = .ok (m.registers.peek f.a.toNat + f.signed)
      { m with registers := m.registers.touch f.a.toNat } :=
  bind_eq_of_ok (readRegister_of_isEnabled ha)

variable (ha : m.registers.isEnabled f.a.toNat = true) (hb : m.registers.isEnabled f.b.toNat = true)
include ha hb

theorem execute_load (kind : LoadKind) (io : Bool) :
    execute (.imm (.load kind io) f) m =
      match m.memory.read kind.width (m.registers.peek f.a.toNat + f.signed) with
      | .error e => .error (.memory e) { m with registers := m.registers.touch f.a.toNat }
      | .ok (v, memory) => .ok () (written
          { m with registers := m.registers.touch f.a.toNat, memory := memory } f.b
          (kind.extend v)) := by
  have hCheck : checkRegister f.b { m with registers := m.registers.touch f.a.toNat } =
      .ok () { m with registers := m.registers.touch f.a.toNat } := by
    rw [checkRegister, RegisterFile.check_of_isEnabled (by simpa using hb)]
  have hLoad := loadMemory_eq kind.width (m.registers.peek f.a.toNat + f.signed)
    { m with registers := m.registers.touch f.a.toNat }
  rw [execute, bind_eq_of_ok (effectiveAddress_of_isEnabled ha), bind_eq_of_ok hCheck]
  cases hRead : m.memory.read kind.width (m.registers.peek f.a.toNat + f.signed) with
  | error e =>
    simp only [hRead] at hLoad
    rw [bind_eq_of_error _ hLoad]
  | ok r =>
    simp only [hRead] at hLoad
    rw [bind_eq_of_ok hLoad, writeRegister_of_isEnabled (by simpa using hb)]

theorem execute_store (width : Width) (io : Bool) :
    execute (.imm (.store width io) f) m =
      storeMemory width (m.registers.peek f.a.toNat + f.signed) (m.registers.peek f.b.toNat)
        { m with registers := (m.registers.touch f.a.toNat).touch f.b.toNat } := by
  rw [execute, bind_eq_of_ok (effectiveAddress_of_isEnabled ha),
    bind_eq_of_ok (readRegister_of_isEnabled (by simpa using hb)), RegisterFile.peek_touch]

theorem uses_load (kind : LoadKind) (io : Bool) : m.Uses (.load kind io) f f.imm.toInt := by
  have hExecute := execute_load ha hb kind io
  refine ⟨_, toNat_add_signed _ f, ?_⟩
  split
  next e hRead =>
    simp only [hRead] at hExecute
    exact faultsAt_of_execute rfl hExecute
  next v memory hRead =>
    simp only [hRead] at hExecute
    have hWrote : Wrote { m with memory := memory } _ f.b (kind.extend v) :=
      wrote_written (m := { m with memory := memory }) (r := m.registers.touch f.a.toNat)
        (by simp) (by simp) hb _
    refine ⟨Memory.toNat_lt_of_read_eq_ok hRead, _, kind.extends_extend v, _, hExecute, ?_, hWrote⟩
    intro hc
    rw [hWrote.peek, if_pos ⟨rfl, hc⟩]

theorem uses_store (width : Width) (io : Bool) : m.Uses (.store width io) f f.imm.toInt := by
  have hExecute := execute_store ha hb width io
  rw [storeMemory_eq] at hExecute
  have hLow : (BitVec.ofNat 32 ((m.registers.peek f.b.toNat).toNat % 2 ^ (8 * width.bytes))).toNat =
      (m.registers.peek f.b.toNat).toNat % 2 ^ (8 * width.bytes) :=
    Nat.mod_eq_of_lt (Nat.lt_of_le_of_lt (Nat.mod_le _ _) (BitVec.isLt _))
  refine ⟨_, _, toNat_add_signed _ f, hLow, ?_⟩
  rw [Memory.write_congr (y := m.registers.peek f.b.toNat) (by rw [hLow, Nat.mod_mod])]
  split
  next e hWrite =>
    simp only [hWrite] at hExecute
    exact faultsAt_of_execute rfl hExecute
  next memory events hWrite =>
    simp only [hWrite] at hExecute
    refine ⟨_, hExecute, fun hc => absurd rfl hc, ?_⟩
    exact {
      pc := rfl
      steps := rfl
      state := rfl
      peek := fun j => by simp
      enabled := fun j => by simp
      memory := rfl
      snapshot := rfl }

end Uses

/-- For every opcode that takes an operand register, an immediate and another register, one number
is shown as the immediate and used as it, whatever registers and memory hold. -/
theorem uses_shown_immediate {op : ImmOp} (hShape : op.shape = .standard ∨ op.shape = .memory)
    (f : ImmFields) :
    ∃ n : Int, (∀ k, op.Shows f k ↔ k = n) ∧
      ∀ m : Machine, m.registers.isEnabled f.a.toNat = true →
        m.registers.isEnabled f.b.toNat = true → m.Uses op f n := by
  refine ⟨_, op.shows_iff hShape f, fun m ha hb => ?_⟩
  cases op with
  | arith op =>
    exact ⟨_, op.says_eval _ f, leaves_of_wrote (exists_readThenWrite ha hb (op.eval · f))⟩
  | compare cond =>
    rw [Uses, ← cond.flag_holds]
    exact leaves_of_wrote
      (exists_readThenWrite ha hb fun x => flag (cond.holds x (cond.operand f)))
  | load kind io => exact uses_load ha hb kind io
  | store width io => exact uses_store ha hb width io
  | br => rcases hShape with hShape | hShape <;> cases hShape
  | branch cond => rcases hShape with hShape | hShape <;> cases hShape

/-- The same 16 bits are -1 where they are added, and 65535 in a logical operation. -/
theorem uses_shown_immediate_allOnes :
    (Instruction.imm (.arith .addi) ⟨0, 2, 0xffff⟩).text = "addi r2, r0, -1".toList ∧
      new.Leaves (.imm (.arith .addi) ⟨0, 2, 0xffff⟩) new.memory 2 0xffffffff ∧
      (Instruction.imm (.arith .ori) ⟨0, 2, 0xffff⟩).text = "ori r2, r0, 65535".toList ∧
      new.Leaves (.imm (.arith .ori) ⟨0, 2, 0xffff⟩) new.memory 2 0xffff := by
  have hAddiShape : (ImmOp.arith .addi).shape = .standard := rfl
  have hOriShape : (ImmOp.arith .ori).shape = .standard := rfl
  obtain ⟨n, hAddi, hUsesAddi⟩ := uses_shown_immediate (.inl hAddiShape) ⟨0, 2, 0xffff⟩
  obtain ⟨k, hOri, hUsesOri⟩ := uses_shown_immediate (.inl hOriShape) ⟨0, 2, 0xffff⟩
  obtain rfl := (hAddi (-1)).mp (by unfold ImmOp.Shows; decide +kernel)
  obtain rfl := (hOri 65535).mp (by unfold ImmOp.Shows; decide +kernel)
  obtain ⟨w, hSum, hAdded⟩ := hUsesAddi new (by decide) (by decide)
  obtain ⟨v, ⟨j, hj, hOr⟩, hOred⟩ := hUsesOri new (by decide) (by decide)
  obtain rfl : w = 0xffffffff := by
    have hValue : (w.toNat : Int) = (0xffffffff : Word).toNat := hSum.trans (by decide)
    exact BitVec.eq_of_toNat_eq (by exact_mod_cast hValue)
  obtain rfl : v = 0xffff := by
    obtain rfl : j = 0xffff := by omega
    exact BitVec.eq_of_toNat_eq (hOr.trans (by decide))
  exact ⟨by decide +kernel, hAdded, by decide +kernel, hOred⟩

end Machine

end NiosBoard
