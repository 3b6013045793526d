import NiosBoard.Proofs.Assembly.PseudoInstructions
import NiosBoard.Proofs.Machine.Failure
import NiosBoard.Proofs.Machine.RegisterSteps

/-! # What pseudo-instructions do

The comparisons and branches that the machine lacks come out as those it has with their operands
exchanged, and moves as additions to register 0. One step of the assembled line does what the name
says, whatever its operands are called.
-/

namespace NiosBoard

namespace Order

instance (o : Order) (a b : Word) : Decidable (o.Says a b) :=
  match o with
  | .gt => inferInstanceAs (Decidable (a.toInt > b.toInt))
  | .gtu => inferInstanceAs (Decidable (a.toNat > b.toNat))
  | .le => inferInstanceAs (Decidable (a.toInt ≤ b.toInt))
  | .leu => inferInstanceAs (Decidable (a.toNat ≤ b.toNat))

theorem says_swapped (o : Order) (a b : Word) : o.swapped.Says b a ↔ o.Says a b := by
  cases o <;> exact Iff.rfl

theorem flag_holds_swapped (o : Order) (a b : Word) :
    flag (o.swapped.holds b a) = if o.Says a b then 1 else 0 := by
  rw [flag]
  simp only [Condition.holds_iff, says_swapped]

end Order

/-! ### Immediates in the range of their field -/

theorem toInt_setWidth_of_range {v : Value} (hLow : -32768 ≤ v.toInt) (hHigh : v.toInt ≤ 32767) :
    (v.setWidth 16).toInt = v.toInt := by
  have hLow16 := toNat_setWidth_eq_emod (n := 16) (by decide) v
  rw [BitVec.toInt_eq_toNat_cond]
  split <;> omega

theorem toNat_setWidth_of_range {v : Value} (hLow : 0 ≤ v.toInt) (hHigh : v.toInt ≤ 65535) :
    ((v.setWidth 16).toNat : Int) = v.toInt := by
  have hLow16 := toNat_setWidth_eq_emod (n := 16) (by decide) v
  omega

theorem toNat_upper (f : ImmFields) : f.upper.toNat = 65536 * f.imm.toNat := by
  rw [ImmFields.upper, BitVec.toNat_append, BitVec.toNat_zero, Nat.or_zero, Nat.shiftLeft_eq,
    Nat.mul_comm]

namespace MoveI

def low : MoveI → Int
  | .movi => -32768
  | _ => 0

def high : MoveI → Int
  | .movi => 32767
  | _ => 65535

/-- What the register shows after the number was moved there. -/
def value : MoveI → Int → Word
  | .movhi, n => BitVec.ofInt 32 (n * 2 ^ 16)
  | _, n => BitVec.ofInt 32 n

theorem eval_zero {k : MoveI} {v : Value} (hLow : k.low ≤ v.toInt) (hHigh : v.toInt ≤ k.high)
    (a c : RegIndex) : k.op.eval 0#32 ⟨a, c, v.setWidth 16⟩ = k.value v.toInt := by
  cases k with
  | movi =>
    have hImm := toInt_setWidth_of_range hLow hHigh
    simp [op, ArithI.eval, ImmFields.signed, BitVec.signExtend, hImm, value]
  | movui =>
    have hImm := toNat_setWidth_of_range hLow hHigh
    apply BitVec.eq_of_toNat_eq
    simp only [op, ArithI.eval, BitVec.zero_or, ImmFields.unsigned, value,
      BitVec.toNat_ofInt, BitVec.toNat_setWidth 32]
    omega
  | movhi =>
    have hImm := toNat_setWidth_of_range hLow hHigh
    apply BitVec.eq_of_toNat_eq
    simp only [op, ArithI.eval, BitVec.zero_or, toNat_upper, value,
      BitVec.toNat_ofInt]
    omega

end MoveI

/-! ### One step -/

/-- What the call does with the registers as in `r`: where it goes on, and what it writes where.
Branches and `nop` write nothing. Targets are word addresses in reach of 16 bits, immediates are in
the range of their field, and no register that is read or written is disabled, register 0 included
where the call reads it. -/
inductive PseudoOp.Means (symbols : Symbols) (r : RegisterFile) (address : Nat) :
    PseudoOp → List Text → Int → RegIndex → Word → Prop
  | compare {o : Order} {x y z : Text} {a b c : RegIndex} (hx : Names x c) (hy : Names y a)
      (hz : Names z b) (hc : r.isEnabled c.toNat = true) (ha : r.isEnabled a.toNat = true)
      (hb : r.isEnabled b.toNat = true) :
      Means symbols r address (.compare o) [x, y, z] (address + 4) c
        (if o.Says (r.peek a.toNat) (r.peek b.toNat) then 1 else 0)
  | taken {o : Order} {x y t : Text} {a b : RegIndex} {v : Value} (hx : Names x a) (hy : Names y b)
      (ha : r.isEnabled a.toNat = true) (hb : r.isEnabled b.toNat = true)
      (hv : Expression.evaluate symbols t = .ok v) (hAligned : 4 ∣ v.toInt)
      (hNear : -32768 ≤ v.toInt - (address + 4)) (hFar : v.toInt - (address + 4) ≤ 32767)
      (hSays : o.Says (r.peek a.toNat) (r.peek b.toNat)) :
      Means symbols r address (.branch o) [x, y, t] v.toInt 0 0
  | notTaken {o : Order} {x y t : Text} {a b : RegIndex} {v : Value} (hx : Names x a)
      (hy : Names y b) (ha : r.isEnabled a.toNat = true) (hb : r.isEnabled b.toNat = true)
      (hv : Expression.evaluate symbols t = .ok v)
      (hSays : ¬ o.Says (r.peek a.toNat) (r.peek b.toNat)) :
      Means symbols r address (.branch o) [x, y, t] (address + 4) 0 0
  | mov {x y : Text} {a c : RegIndex} (hx : Names x c) (hy : Names y a)
      (hc : r.isEnabled c.toNat = true) (ha : r.isEnabled a.toNat = true)
      (hZero : r.isEnabled 0 = true) :
      Means symbols r address .mov [x, y] (address + 4) c (r.peek a.toNat)
  | moveI {k : MoveI} {x t : Text} {c : RegIndex} {v : Value} (hx : Names x c)
      (hv : Expression.evaluate symbols t = .ok v) (hLow : k.low ≤ v.toInt)
      (hHigh : v.toInt ≤ k.high) (hc : r.isEnabled c.toNat = true) (hZero : r.isEnabled 0 = true) :
      Means symbols r address (.moveI k) [x, t] (address + 4) c (k.value v.toInt)
  | nop (hZero : r.isEnabled 0 = true) : Means symbols r address .nop [] (address + 4) 0 0

namespace Machine

variable {source : Text} {p : Program} {d : Draft} {q : PseudoOp} {operands : List Text}
  {m : Machine} {next : Int} {c : RegIndex} {w : Word}

theorem AboutTo.ofInt_next {i : Nat} (h : AboutTo source p i m) :
    BitVec.ofInt 32 (↑(4 * i) + 4) = m.pc + 4 := by
  rw [BitVec.ofInt_add, BitVec.ofInt_natCast, ← h.toNat_pc, BitVec.ofNat_toNat, BitVec.setWidth_eq]
  rfl

/-- One step from a call does what the call means; register 0 stays zero also when it is written. -/
theorem pseudo_instructions_mean (hCall : CallsPseudo source d q operands)
    (h : AboutTo source p d.code.size m)
    (hMeans : q.Means p.symbol? m.registers (4 * d.code.size) operands next c w) :
    ∃ m', step m = .ok true m' ∧ Stepped m m' (BitVec.ofInt 32 next) c w ∧
      m'.registers.peek 0 = 0 := by
  suffices hStep : ∃ m', step m = .ok true m' ∧ Stepped m m' (BitVec.ofInt 32 next) c w by
    obtain ⟨m', hStep, hStepped⟩ := hStep
    exact ⟨m', hStep, hStepped, (h.loaded.leads (.step .refl hStep)).reachable.peek_zero⟩
  have hWord : ∀ {ins}, q.Spells p.symbol? d.code.size operands [ins] →
      p.word (4 * d.code.size) = ins.encode :=
    fun hSpells => (hCall.word_eq_encode h.assembled hSpells (k := 0) rfl).2
  have hZeroPeek : m.registers.peek (0 : RegIndex).toNat = 0#32 := h.loaded.reachable.peek_zero
  cases hMeans with
  | @compare o x y z a b c hx hy hz hc ha hb =>
    rw [h.ofInt_next, ← o.flag_holds_swapped]
    exact h.exists_step_compare hb ha hc (hWord (.compare hx hy hz))
  | @taken o x y t a b v hx hy ha hb hv hAligned hNear hFar hSays =>
    have hImm := toNat_displacement (4 * d.code.size) v
    exact h.exists_step_branch_taken (hWord (.branch hx hy hv hImm)) hb ha
      ((o.says_swapped _ _).mpr hSays) hAligned hNear hFar hImm
  | @notTaken o x y t a b v hx hy ha hb hv hSays =>
    rw [h.ofInt_next]
    exact h.exists_step_branch_notTaken (hWord (.branch hx hy hv (toNat_displacement _ v))) hb ha
      (mt (o.says_swapped _ _).mp hSays)
  | @mov x y a c hx hy hc ha hZero =>
    have hStep := h.exists_step_add (b := 0) ha hZero hc (hWord (.mov hx hy))
    rwa [hZeroPeek, BitVec.add_zero, ← h.ofInt_next] at hStep
  | @moveI k x t c v hx hv hLow hHigh hc hZero =>
    have hStep := h.exists_step_arithI (a := 0) hZero hc (hWord (.moveI hx hv))
    rwa [hZeroPeek, k.eval_zero hLow hHigh, ← h.ofInt_next] at hStep
  | nop hZero =>
    have hStep := h.exists_step_add (a := 0) (b := 0) (c := 0) hZero hZero hZero (hWord .nop)
    rwa [hZeroPeek, BitVec.add_zero, ← h.ofInt_next] at hStep

/-! ### What a name does not say -/

theorem isEnabled_disable (r : RegisterFile) (i j : Nat) :
    (r.disable i).isEnabled j = (r.isEnabled j && !decide (i = j)) := by
  unfold RegisterFile.isEnabled RegisterFile.access? RegisterFile.disable
  rw [RegisterFile.cell_update]
  by_cases hSame : i = j
  · subst hSame
    by_cases hi : i < 32
    · simp [hi, Cell.access?]
    · simp [hi, RegisterFile.cell, Cell.access?]
  · simp [hSame]

theorem readRegister_of_disabled {m : Machine} {i : RegIndex}
    (h : m.registers.isEnabled i.toNat = false) :
    readRegister i m = .error (.register ⟨i.toNat⟩) m := by
  rw [readRegister, RegisterFile.check_of_disabled h]

/-- A machine that lacks register 0 cannot take a step from a move. -/
theorem AboutTo.exists_step_error {source : Text} {p : Program} {i : Nat} {m : Machine}
    {a c : RegIndex} (h : AboutTo source p i m)
    (hWord : p.word (4 * i) = (Instruction.reg (.arith .add) ⟨a, 0, c, 0⟩).encode)
    (ha : m.registers.isEnabled a.toNat = true) (hZero : m.registers.isEnabled 0 = false) :
    ∃ e m', step m = .error e m' := by
  have hFirst := readRegister_of_isEnabled (m := { m with registers := m.registers.resetAccess })
    (i := a) (by simpa using ha)
  have hSecond := readRegister_of_disabled (i := 0)
    (m := { m with registers := m.registers.resetAccess.touch a.toNat }) (by simpa using hZero)
  have hExecute : ∃ f m', execute (.reg (.arith .add) ⟨a, 0, c, 0⟩)
      { m with registers := m.registers.resetAccess } = .error f m' :=
    ⟨_, _, by rw [execute, bind_eq_of_ok hFirst, bind_eq_of_error _ hSecond]⟩
  obtain ⟨f, m', hExecute⟩ := hExecute
  have hStep := h.step_eq_stepInstruction hWord Instruction.noConfusion
  rw [hStep, stepInstruction, hExecute]
  exact ⟨_, _, rfl⟩

def nopSource : Text := "nop\n".toList

def moveSource : Text := "mov r2, r3\n".toList

/-- The first step of a program sets the machine running, also when it is `nop`; and `mov` reads
register 0, which none of its operands names. -/
theorem nop_runs_and_mov_reads_zero :
    (∃ p m', assemble nopSource = .ok p ∧ step (new.loaded p 0) = .ok true m' ∧
      (new.loaded p 0).state = .loaded ∧ m'.state = .running) ∧
    ∃ p m e m', assemble moveSource = .ok p ∧ AboutTo moveSource p 0 m ∧
      m.registers.isEnabled 2 = true ∧ m.registers.isEnabled 3 = true ∧ step m = .error e m' := by
  constructor
  · have hCall : CallsPseudo nopSource Draft.new .nop [] :=
      callsPseudo_of_line "nop".toList "nop".toList [] (by decide +kernel)
    have hAccepted : (assemble nopSource).toOption.map (fun p => (p.length, p.image.size, ())) =
        some (1, 8, ()) := by decide +kernel
    obtain ⟨p, hp, h, -⟩ := exists_aboutTo_new hAccepted (by decide) (by decide)
    have hZero := isEnabled_loaded_new p 0 (i := (0 : RegIndex).toNat) (by decide)
    obtain ⟨m', hStep, hStepped⟩ := h.exists_step_add hZero hZero hZero
      (hCall.word_eq_encode hp .nop (k := 0) rfl).2
    exact ⟨p, m', hp, hStep, rfl, hStepped.state⟩
  · have hCall : CallsPseudo moveSource Draft.new .mov ["r2".toList, "r3".toList] :=
      callsPseudo_of_line "mov r2, r3".toList "mov".toList " r2, r3".toList (by decide +kernel)
    have hAccepted : (assemble moveSource).toOption.map (fun p => (p.length, p.image.size, ())) =
        some (1, 8, ()) := by decide +kernel
    obtain ⟨p, hp, h, -⟩ := exists_aboutTo_new hAccepted (by decide) (by decide)
    have hTwo : Names "r2".toList 2 := by decide +kernel
    have hThree : Names "r3".toList 3 := by decide +kernel
    have hEnabled : ∀ i < 32, i ≠ 0 →
        ((new.loaded p 0).registers.disable 0).isEnabled i = true := by
      intro i hi hne
      rw [isEnabled_disable, isEnabled_loaded_new p 0 hi]
      simpa using hne.symm
    have hLacking : AboutTo moveSource p 0 ((new.loaded p 0).apply (.registers (.disable 0))) :=
      ⟨hp, h.loaded.leads (.op .refl _), h.awake, h.lt, h.pc, h.intact⟩
    have hWord := (hCall.word_eq_encode hp (.mov hTwo hThree) (k := 0) rfl).2
    obtain ⟨e, m', hStep⟩ := hLacking.exists_step_error hWord (hEnabled 3 (by decide) (by decide))
      (by simp [apply, RegisterFile.apply, isEnabled_disable])
    exact ⟨p, _, e, m', hp, hLacking, hEnabled 2 (by decide) (by decide),
      hEnabled 3 (by decide) (by decide), hStep⟩

/-- A branch to its own line, whose label is named like an operand of the branch. -/
def selfBranchSource : Text := "rhs: BLE zero, R5, rhs\n".toList

theorem pseudo_instructions_mean_selfBranchSource :
    ∃ p m', assemble selfBranchSource = .ok p ∧ step (new.loaded p 0) = .ok true m' ∧
      Stepped (new.loaded p 0) m' 0 0 0 ∧ m'.registers.peek 0 = 0 := by
  have hCall : CallsPseudo selfBranchSource Draft.new (.branch .le)
      ["zero".toList, "R5".toList, "rhs".toList] :=
    callsPseudo_of_line "rhs: BLE zero, R5, rhs".toList "BLE".toList " zero, R5, rhs".toList
      (by decide +kernel)
  have hAccepted : (assemble selfBranchSource).toOption.map (fun p =>
      (p.length, p.image.size, (Expression.evaluate p.symbol? "rhs".toList).toOption)) =
        some (1, 8, some 0) := by decide +kernel
  obtain ⟨p, hp, h, -, -, hTarget⟩ := exists_aboutTo_new hAccepted (by decide) (by decide)
  have hZero : Names "zero".toList 0 := by decide +kernel
  have hFive : Names "R5".toList 5 := by decide +kernel
  have hSays : Order.le.Says ((new.loaded p 0).registers.peek (0 : RegIndex).toNat)
      ((new.loaded p 0).registers.peek (5 : RegIndex).toNat) := by
    rw [peek_loaded_new p 0 (by decide) (by decide), peek_loaded_new p 0 (by decide) (by decide)]
    decide
  obtain ⟨m', hStep, hStepped, hStays⟩ := pseudo_instructions_mean hCall h
    (.taken hZero hFive (isEnabled_loaded_new p 0 (by decide)) (isEnabled_loaded_new p 0 (by decide))
      (toOption_eq_some_iff.mp hTarget) (by decide) (by decide) (by decide) hSays)
  exact ⟨p, m', hp, hStep, hStepped, hStays⟩

end Machine

end NiosBoard
