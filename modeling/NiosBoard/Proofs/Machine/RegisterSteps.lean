import NiosBoard.Proofs.Machine.Invariants
import NiosBoard.Proofs.Machine.Transfer

/-! # Steps that write at most one register

Comparisons, arithmetic and branches read registers, write one or go somewhere else, and leave all
else of the machine alone. A write of register 0 writes nothing.
-/

namespace NiosBoard

namespace RegisterFile

variable {r : RegisterFile} {i : Nat}

@[simp] theorem isEnabled_store (w : Word) (j : Nat) : (r.store i w).isEnabled j = r.isEnabled j := by
  unfold isEnabled access? store
  rw [cell_update]
  split
  · cases r.cell j <;> rfl
  · rfl

theorem peek_store_eq (hEnabled : r.isEnabled i = true) (hLt : i < 32) (w : Word) (j : Nat) :
    (r.store i w).peek j = if j = i ∧ i ≠ 0 then w else r.peek j := by
  by_cases hj : j = i
  · subst hj
    by_cases hZero : j = 0
    · subst hZero
      rw [if_neg (by simp)]
      exact peek_update_zero _ fun _ => by cases r.cell 0 <;> rfl
    · rw [if_pos ⟨rfl, hZero⟩, peek_store hEnabled hZero hLt]
  · rw [if_neg (by simp [hj]), peek, store, cell_update, if_neg (by simp [Ne.symm hj])]
    rfl

end RegisterFile

namespace Machine

/-- What an instruction leaves that writes `w` into register `c`: besides this only what happened to
registers, and events. -/
structure Wrote (m m' : Machine) (c : RegIndex) (w : Word) : Prop where
  pc : m'.pc = m.pc
  steps : m'.steps = m.steps
  state : m'.state = m.state
  peek : ∀ j, m'.registers.peek j = if j = c.toNat ∧ c ≠ 0 then w else m.registers.peek j
  enabled : ∀ j, m'.registers.isEnabled j = m.registers.isEnabled j
  memory : m'.memory = m.memory
  snapshot : m'.snapshot = m.snapshot

/-- What a step leaves that goes to `target` and writes `w` into register `c`: besides these only
the number of steps, the run state, what happened to registers, and events. -/
structure Stepped (m m' : Machine) (target : Word) (c : RegIndex) (w : Word) : Prop where
  pc : m'.pc = target
  steps : m'.steps = m.steps + 1
  state : m'.state = .running
  peek : ∀ j, m'.registers.peek j = if j = c.toNat ∧ c ≠ 0 then w else m.registers.peek j
  enabled : ∀ j, m'.registers.isEnabled j = m.registers.isEnabled j
  memory : m'.memory = m.memory
  snapshot : m'.snapshot = m.snapshot

namespace Stepped

variable {m m' : Machine} {target w : Word} {c : RegIndex}

theorem peek_self (h : Stepped m m' target c w) (hc : c ≠ 0) : m'.registers.peek c.toNat = w := by
  rw [h.peek, if_pos ⟨rfl, hc⟩]

theorem peek_of_ne (h : Stepped m m' target c w) {j : Nat} (hj : j ≠ c.toNat) :
    m'.registers.peek j = m.registers.peek j := by
  rw [h.peek, if_neg fun hSame => hj hSame.1]

/-- Forgetting first what happened to the registers makes no difference. -/
theorem of_resetAccess
    (h : Stepped { m with registers := m.registers.resetAccess } m' target c w) :
    Stepped m m' target c w where
  pc := h.pc
  steps := h.steps
  state := h.state
  peek j := by rw [h.peek, RegisterFile.peek_resetAccess]
  enabled j := by rw [h.enabled, RegisterFile.isEnabled_resetAccess]
  memory := h.memory
  snapshot := h.snapshot

end Stepped

/-- The step goes on with the next instruction. -/
theorem Wrote.stepped {m m' : Machine} {c : RegIndex} {w : Word} (h : Wrote m m' c w) :
    Stepped m m'.advance (m.pc + 4) c w where
  pc := congrArg (· + 4) h.pc
  steps := congrArg (· + 1) h.steps
  state := rfl
  peek := h.peek
  enabled := h.enabled
  memory := h.memory
  snapshot := h.snapshot

/-! ### Reading registers and writing one -/

variable {m : Machine} {a b c : RegIndex}

theorem toNat_ne_zero_iff : c.toNat ≠ 0 ↔ c ≠ 0 :=
  not_congr (BitVec.toNat_eq (x := c) (y := 0)).symm

/-- The machine after a write of a register. -/
def written (m : Machine) (c : RegIndex) (w : Word) : Machine :=
  let registers := m.registers.store c.toNat w
  { m with
    registers := registers
    bus := m.bus.publish (.register c.toNat (registers.peek c.toNat)) }

theorem writeRegister_of_isEnabled (hc : m.registers.isEnabled c.toNat = true) (w : Word) :
    writeRegister c w m = .ok () (m.written c w) := by
  rw [writeRegister, RegisterFile.check_of_isEnabled hc]
  rfl

theorem wrote_written {r : RegisterFile} (hPeek : ∀ j, r.peek j = m.registers.peek j)
    (hEnabled : ∀ j, r.isEnabled j = m.registers.isEnabled j)
    (hc : m.registers.isEnabled c.toNat = true) (w : Word) :
    Wrote m (written { m with registers := r } c w) c w where
  pc := rfl
  steps := rfl
  state := rfl
  peek j := by
    have hStore := RegisterFile.peek_store_eq ((hEnabled _).trans hc) c.isLt w j
    simp only [toNat_ne_zero_iff, hPeek] at hStore
    exact hStore
  enabled j := (RegisterFile.isEnabled_store w j).trans (hEnabled j)
  memory := rfl
  snapshot := rfl

/-- Going on somewhere else writes nothing. -/
theorem stepped_moved {r : RegisterFile} (hPeek : ∀ j, r.peek j = m.registers.peek j)
    (hEnabled : ∀ j, r.isEnabled j = m.registers.isEnabled j) (pc : Word) :
    Stepped m (advance { m with registers := r, pc := pc }) (pc + 4) 0 0 where
  pc := rfl
  steps := rfl
  state := rfl
  peek j := by
    rw [if_neg fun hSame => hSame.2 rfl]
    exact hPeek j
  enabled := hEnabled
  memory := rfl
  snapshot := rfl

theorem exists_readThenWrite (ha : m.registers.isEnabled a.toNat = true)
    (hc : m.registers.isEnabled c.toNat = true) (f : Word → Word) :
    ∃ m', (do writeRegister c (f (← readRegister a)) : Exec Fault Unit) m = .ok () m' ∧
      Wrote m m' c (f (m.registers.peek a.toNat)) := by
  rw [bind_eq_of_ok (readRegister_of_isEnabled ha),
    writeRegister_of_isEnabled (by simpa using hc)]
  exact ⟨_, rfl, wrote_written (by simp) (by simp) hc _⟩

theorem exists_readTwiceThenWrite (ha : m.registers.isEnabled a.toNat = true)
    (hb : m.registers.isEnabled b.toNat = true) (hc : m.registers.isEnabled c.toNat = true)
    (f : Word → Word → Word) :
    ∃ m', (do writeRegister c (f (← readRegister a) (← readRegister b)) : Exec Fault Unit) m =
        .ok () m' ∧
      Wrote m m' c (f (m.registers.peek a.toNat) (m.registers.peek b.toNat)) := by
  rw [bind_eq_of_ok (readRegister_of_isEnabled ha),
    bind_eq_of_ok (readRegister_of_isEnabled (by simpa using hb)), RegisterFile.peek_touch,
    writeRegister_of_isEnabled (by simpa using hc)]
  exact ⟨_, rfl, wrote_written (by simp) (by simp) hc _⟩

/-! ### Steps of a loaded program -/

/-- Register 0 shows zero, whatever was written into it. -/
theorem Reachable.peek_zero (h : Reachable m) : m.registers.peek 0 = 0 := by
  induction h with
  | refl => rfl
  | op _ o ih =>
    exact stable_act (a := .op o) RegisterFile.stable_peek_zero
      (fun _ _ => RegisterFile.peek_enable_zero.trans ih) ih

namespace AboutTo

variable {source : Text} {p : Program} {i : Nat} {target w : Word}

/-- A step reads its instruction first, which changes nothing that instructions look at. -/
theorem exists_step_of_execute {ins : Instruction} (h : AboutTo source p i m)
    (hWord : p.word (4 * i) = ins.encode) (hNonzero : ins ≠ .jump .call 0)
    (hExecute : ∃ m', execute ins { m with registers := m.registers.resetAccess } = .ok () m' ∧
      Stepped { m with registers := m.registers.resetAccess } m'.advance target c w) :
    ∃ m', step m = .ok true m' ∧ Stepped m m' target c w := by
  obtain ⟨m', hExecute, hStepped⟩ := hExecute
  refine ⟨m'.advance, ?_, hStepped.of_resetAccess⟩
  rw [h.step_eq_stepInstruction hWord hNonzero, stepInstruction, hExecute]

theorem exists_step_of_wrote {ins : Instruction} (h : AboutTo source p i m)
    (hWord : p.word (4 * i) = ins.encode) (hNonzero : ins ≠ .jump .call 0)
    (hExecute : ∃ m', execute ins { m with registers := m.registers.resetAccess } = .ok () m' ∧
      Wrote { m with registers := m.registers.resetAccess } m' c w) :
    ∃ m', step m = .ok true m' ∧ Stepped m m' (m.pc + 4) c w := by
  obtain ⟨m', hExecute, hWrote⟩ := hExecute
  exact h.exists_step_of_execute hWord hNonzero ⟨m', hExecute, hWrote.stepped⟩

/-- After a step that goes on, the next instruction is the one after it. -/
theorem next {m' : Machine} (h : AboutTo source p i m) (hStep : step m = .ok true m')
    (hStepped : Stepped m m' (m.pc + 4) c w) (hLt : i + 1 < p.length)
    (hIntact : m.memory.peek .word (m.pc + 4) = .ok (p.word (4 * (i + 1)))) :
    AboutTo source p (i + 1) m' where
  assembled := h.assembled
  loaded := h.loaded.leads (.step .refl hStep)
  awake := by
    rw [hStepped.state]
    nofun
  lt := hLt
  pc := by
    rw [hStepped.pc, h.pc, BitVec.add_assoc, Nat.mul_add, BitVec.ofNat_add]
    rfl
  intact := by rw [hStepped.memory, hStepped.pc, hIntact]

section Registers

variable (h : AboutTo source p i m) (ha : m.registers.isEnabled a.toNat = true)
  (hb : m.registers.isEnabled b.toNat = true) (hc : m.registers.isEnabled c.toNat = true)
include h ha hc

theorem exists_step_arithI {op : ArithI} {imm : BitVec 16}
    (hWord : p.word (4 * i) = (Instruction.imm (.arith op) ⟨a, c, imm⟩).encode) :
    ∃ m', step m = .ok true m' ∧
      Stepped m m' (m.pc + 4) c (op.eval (m.registers.peek a.toNat) ⟨a, c, imm⟩) := by
  refine h.exists_step_of_wrote hWord nofun ?_
  rw [← RegisterFile.peek_resetAccess]
  exact exists_readThenWrite (by simpa using ha) (by simpa using hc) fun x => op.eval x ⟨a, c, imm⟩

theorem exists_step_compareI {cond : Condition} {imm : BitVec 16}
    (hWord : p.word (4 * i) = (Instruction.imm (.compare cond) ⟨a, c, imm⟩).encode) :
    ∃ m', step m = .ok true m' ∧ Stepped m m' (m.pc + 4) c
      (flag (cond.holds (m.registers.peek a.toNat) (cond.operand ⟨a, c, imm⟩))) := by
  refine h.exists_step_of_wrote hWord nofun ?_
  rw [← RegisterFile.peek_resetAccess]
  exact exists_readThenWrite (by simpa using ha) (by simpa using hc)
    fun x => flag (cond.holds x (cond.operand ⟨a, c, imm⟩))

include hb

theorem exists_step_add (hWord : p.word (4 * i) = (Instruction.reg (.arith .add) ⟨a, b, c, 0⟩).encode) :
    ∃ m', step m = .ok true m' ∧ Stepped m m' (m.pc + 4) c
      (m.registers.peek a.toNat + m.registers.peek b.toNat) := by
  refine h.exists_step_of_wrote hWord nofun ?_
  rw [← m.registers.peek_resetAccess a.toNat, ← m.registers.peek_resetAccess b.toNat]
  exact exists_readTwiceThenWrite (by simpa using ha) (by simpa using hb) (by simpa using hc) (· + ·)

theorem exists_step_compare {cond : Condition}
    (hWord : p.word (4 * i) = (Instruction.reg (.compare cond) ⟨a, b, c, 0⟩).encode) :
    ∃ m', step m = .ok true m' ∧ Stepped m m' (m.pc + 4) c
      (flag (cond.holds (m.registers.peek a.toNat) (m.registers.peek b.toNat))) := by
  refine h.exists_step_of_wrote hWord nofun ?_
  rw [← m.registers.peek_resetAccess a.toNat, ← m.registers.peek_resetAccess b.toNat]
  exact exists_readTwiceThenWrite (by simpa using ha) (by simpa using hb) (by simpa using hc)
    fun x y => flag (cond.holds x y)

end Registers

section Branches

variable {cond : Condition} {imm : BitVec 16} (h : AboutTo source p i m)
  (hWord : p.word (4 * i) = (Instruction.imm (.branch cond) ⟨a, b, imm⟩).encode)
  (ha : m.registers.isEnabled a.toNat = true) (hb : m.registers.isEnabled b.toNat = true)
include h hWord ha hb

theorem exists_step_branch_taken {t : Int}
    (hSays : cond.Says (m.registers.peek a.toNat) (m.registers.peek b.toNat)) (hAligned : 4 ∣ t)
    (hNear : -32768 ≤ t - (↑(4 * i) + 4)) (hFar : t - (↑(4 * i) + 4) ≤ 32767)
    (hImm : (imm.toNat : Int) = (t - (↑(4 * i) + 4)) % 2 ^ 16) :
    ∃ m', step m = .ok true m' ∧ Stepped m m' (BitVec.ofInt 32 t) 0 0 := by
  rw [← h.toNat_pc] at hNear hFar hImm
  have hLands := toNat_add_signExtend hNear hFar hImm
  refine h.exists_step_of_execute hWord nofun ⟨_, execute_branch cond (by simpa using ha)
    (by simpa using hb) (by simpa using hSays) (toNat_mod_four_of_eq hAligned hLands), ?_⟩
  -- the branch adds the immediate, and the step that follows every instruction adds 4
  have hPc : m.pc + imm.signExtend 32 + 4 = BitVec.ofInt 32 t := by
    apply BitVec.eq_of_toNat_eq
    have hNext := toNat_add_four hLands
    rw [BitVec.toNat_ofInt]
    omega
  exact hPc ▸ stepped_moved (by simp) (by simp) _

theorem exists_step_branch_notTaken
    (hSays : ¬ cond.Says (m.registers.peek a.toNat) (m.registers.peek b.toNat)) :
    ∃ m', step m = .ok true m' ∧ Stepped m m' (m.pc + 4) 0 0 := by
  refine h.exists_step_of_execute hWord nofun ⟨_, execute_branch_of_not cond (by simpa using ha)
    (by simpa using hb) (by simpa using hSays), ?_⟩
  exact stepped_moved (by simp) (by simp) m.pc

end Branches

end AboutTo

end Machine

end NiosBoard
