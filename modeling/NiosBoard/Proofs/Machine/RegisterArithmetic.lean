import NiosBoard.Proofs.Machine.Failure
import NiosBoard.Proofs.Machine.RegisterSteps

/-! # R-format arithmetic is integer arithmetic

A word has two readings, `toNat` and `toInt`. Products are taken in 64 bits, where they fit whatever
the readings of the operands are, so the upper half that one instruction gives and the lower half
that another gives make up the whole product. Quotients and shifts are exact too. An instruction
that succeeds writes its destination, and one that divides by zero writes nothing.
-/

namespace NiosBoard

/-! ### Words and their readings -/

theorem toInt_setWidth_eq_toNat (x : Word) : (x.setWidth 64).toInt = x.toNat := by
  rw [BitVec.toInt_setWidth]
  exact Int.bmod_eq_of_le (by omega) (by omega)

theorem toInt_signExtend_eq_toInt (x : Word) : (x.signExtend 64).toInt = x.toInt :=
  BitVec.toInt_signExtend_of_le (by decide)

theorem toNat_setWidth_eq_toNat (x : Word) : (x.setWidth 64).toNat = x.toNat :=
  BitVec.toNat_setWidth_of_le (by decide)

/-- The lower half of a product does not depend on how the operands are read. -/
theorem toNat_mul_eq_emod {x y : Word} {p q : Int} (hp : p % 2 ^ 32 = x.toNat)
    (hq : q % 2 ^ 32 = y.toNat) : ((x * y).toNat : Int) = p * q % 2 ^ 32 := by
  rw [Int.mul_emod, hp, hq, BitVec.toNat_mul]
  norm_cast

theorem toNat_upperHalf (x : BitVec 64) : (upperHalf x).toNat = x.toNat / 2 ^ 32 := by
  have hx := x.isLt
  rw [upperHalf, BitVec.extractLsb'_toNat, Nat.shiftRight_eq_div_pow]
  omega

theorem toInt_upperHalf (x : BitVec 64) : (upperHalf x).toInt = x.toInt / 2 ^ 32 := by
  have hUpper := toNat_upperHalf x
  rw [BitVec.toInt_eq_toNat_cond, BitVec.toInt_eq_toNat_cond, hUpper]
  split <;> split <;> omega

/-! ### Products fit in 64 bits -/

theorem umulOverflow_unsigned (x y : Word) :
    (x.setWidth 64).umulOverflow (y.setWidth 64) = false := by
  have hProduct : x.toNat * y.toNat < 2 ^ 32 * 2 ^ 32 := Nat.mul_lt_mul'' x.isLt y.isLt
  rw [BitVec.umulOverflow, toNat_setWidth_eq_toNat, toNat_setWidth_eq_toNat, decide_eq_false_iff_not]
  omega

theorem smulOverflow_signed (x y : Word) :
    (x.signExtend 64).smulOverflow (y.signExtend 64) = false := by
  have hHigh := BitVec.toInt_mul_toInt_le (x := x) (y := y)
  have hLow := BitVec.le_toInt_mul_toInt (x := x) (y := y)
  rw [BitVec.smulOverflow, toInt_signExtend_eq_toInt, toInt_signExtend_eq_toInt]
  norm_num at hHigh hLow ⊢
  omega

theorem smulOverflow_mixed (x y : Word) :
    (x.signExtend 64).smulOverflow (y.setWidth 64) = false := by
  have hHigh : x.toInt < 2 ^ 31 := BitVec.toInt_lt
  have hLow : -2 ^ 31 ≤ x.toInt := BitVec.le_toInt x
  have hy : (y.toNat : Int) < 2 ^ 32 := by exact_mod_cast y.isLt
  have hNonneg : (0 : Int) ≤ y.toNat := Int.natCast_nonneg _
  rw [BitVec.smulOverflow, toInt_signExtend_eq_toInt, toInt_setWidth_eq_toNat]
  norm_num at hHigh hLow hy ⊢
  constructor <;> nlinarith only [hHigh, hLow, hy, hNonneg]

theorem upperHalf_mul_unsigned (x y : Word) :
    (upperHalf (x.setWidth 64 * y.setWidth 64)).toNat * 2 ^ 32 + (x * y).toNat =
      x.toNat * y.toNat := by
  have hWhole := BitVec.toNat_mul_of_not_umulOverflow (Bool.not_eq_true _ ▸ umulOverflow_unsigned x y)
  rw [toNat_setWidth_eq_toNat, toNat_setWidth_eq_toNat] at hWhole
  rw [toNat_upperHalf, hWhole, BitVec.toNat_mul]
  omega

/-- The 64-bit words `p` and `q` are read with sign, and the lower half is that of the operands. -/
theorem upperHalf_mul_signed {x y : Word} {p q : BitVec 64} (hFits : p.smulOverflow q = false)
    (hp : p.toInt % 2 ^ 32 = x.toNat) (hq : q.toInt % 2 ^ 32 = y.toNat) :
    (upperHalf (p * q)).toInt * 2 ^ 32 + (x * y).toNat = p.toInt * q.toInt := by
  rw [toInt_upperHalf, BitVec.toInt_mul_of_not_smulOverflow (by simp [hFits]),
    toNat_mul_eq_emod hp hq]
  omega

theorem rotateRight_rotateLeft (x : Word) (k : Nat) : (x.rotateLeft k).rotateRight k = x := by
  apply BitVec.eq_of_getLsbD_eq
  intro i hi
  have hk : k % 32 < 32 := Nat.mod_lt _ (by decide)
  rw [BitVec.getLsbD_rotateRight, BitVec.getLsbD_rotateLeft, BitVec.getLsbD_rotateLeft]
  by_cases hBelow : i < 32 - k % 32
  · have hHigh : ¬ k % 32 + i < k % 32 := by omega
    have hInside : k % 32 + i < 32 := by omega
    have hIndex : k % 32 + i - k % 32 = i := by omega
    simp only [hBelow, hHigh, hInside, hIndex, decide_true, decide_false, cond_true, cond_false,
      Bool.true_and]
  · have hLow : i - (32 - k % 32) < k % 32 := by omega
    have hIndex : 32 - k % 32 + (i - (32 - k % 32)) = i := by omega
    simp only [hBelow, hLow, hi, hIndex, decide_true, decide_false, cond_true, cond_false,
      Bool.true_and]

theorem toNat_sdiv_eq_emod (x y : Word) :
    ((x.sdiv y).toNat : Int) = x.toInt.tdiv y.toInt % 2 ^ 32 := by
  rw [← toInt_emod_eq_toNat (x.sdiv y), BitVec.toInt_sdiv]
  exact Int.bmod_emod

theorem toNat_sub_eq_emod (x y : Word) :
    ((x - y).toNat : Int) = ((x.toNat : Int) - y.toNat) % 2 ^ 32 := by
  rw [BitVec.toNat_sub]
  omega

/-! ### Shifts and rotations -/

theorem rotate_eq_add {n : Nat} (hn : n < 2 ^ 32) {k : Nat} (hk : k ≤ 32) :
    (n <<< k % 2 ^ 32 ||| n >>> (32 - k)) = n * 2 ^ k % 2 ^ 32 + n / 2 ^ (32 - k) := by
  have hWidth : 2 ^ 32 = 2 ^ (32 - k) * 2 ^ k := by rw [← pow_add, Nat.sub_add_cancel hk]
  have hLow : n / 2 ^ (32 - k) < 2 ^ k := Nat.div_lt_of_lt_mul (hWidth ▸ hn)
  have hHigh : n * 2 ^ k % 2 ^ 32 = (n % 2 ^ (32 - k)) <<< k := by
    rw [Nat.shiftLeft_eq, ← Nat.mul_mod_mul_right, ← hWidth]
  rw [Nat.shiftLeft_eq n, Nat.shiftRight_eq_div_pow, hHigh, Nat.shiftLeft_add_eq_or_of_lt hLow]

/-- What a shift or rotation by `k` places makes of a word. -/
def Shift.Says (op : Shift) (x : Word) (k : Nat) (w : Word) : Prop :=
  match op with
  | .sll => w.toNat = x.toNat * 2 ^ k % 2 ^ 32
  | .srl => w.toNat = x.toNat / 2 ^ k
  | .sra => w.toInt = x.toInt / 2 ^ k
  | .rol => w.toNat = x.toNat * 2 ^ k % 2 ^ 32 + x.toNat / 2 ^ (32 - k)
  | .ror => w.toNat = x.toNat / 2 ^ k + x.toNat * 2 ^ (32 - k) % 2 ^ 32

theorem Shift.says_eval (op : Shift) (x : Word) (count : Nat) :
    op.Says x (count % 32) (op.eval x count) := by
  have hCount : count % 32 < 32 := Nat.mod_lt _ (by decide)
  cases op with
  | sll => rw [Says, eval, BitVec.toNat_shiftLeft, Nat.shiftLeft_eq]
  | srl => rw [Says, eval, BitVec.toNat_ushiftRight, Nat.shiftRight_eq_div_pow]
  | sra =>
    rw [Says, eval, BitVec.toInt_sshiftRight, Int.shiftRight_eq_div_pow]
    norm_cast
  | rol =>
    rw [Says, eval, BitVec.toNat_rotateLeft, Nat.mod_mod]
    exact rotate_eq_add x.isLt hCount.le
  | ror =>
    have hSum := rotate_eq_add x.isLt (Nat.sub_le 32 (count % 32))
    rw [Nat.sub_sub_self hCount.le] at hSum
    rw [Says, eval, BitVec.toNat_rotateRight, Nat.mod_mod, Nat.or_comm, Nat.add_comm, hSum]

namespace Machine

/-! ### Executing -/

/-- The fields name enabled registers: operands that hold `x` and `y`, and a destination other than
register 0. -/
structure Ready (m : Machine) (f : RegFields) (x y : Word) : Prop where
  a : m.registers.isEnabled f.a.toNat = true
  b : m.registers.isEnabled f.b.toNat = true
  c : m.registers.isEnabled f.c.toNat = true
  left : m.registers.peek f.a.toNat = x
  right : m.registers.peek f.b.toNat = y
  destination : f.c ≠ 0

/-- The instruction of this opcode with the fields `f` leaves `w` in its destination, and changes
nothing else but what happened to registers, and events. -/
def Gives (m : Machine) (op : RegOp) (f : RegFields) (w : Word) : Prop :=
  ∃ m', execute (.reg op f) m = .ok () m' ∧ m'.registers.peek f.c.toNat = w ∧ Wrote m m' f.c w

/-- The instruction faults, and writes nothing. -/
def DividesByZero (m : Machine) (op : RegOp) (f : RegFields) : Prop :=
  ∃ m', execute (.reg op f) m = .error .divisionByZero m' ∧ Unmoved m m'

/-- A rotation of `w` to the right gives `x`, in any machine, if its count is `k` modulo 32. -/
def UndoneByRor (x w : Word) (k : Nat) : Prop :=
  ∀ (m : Machine) (f : RegFields) (y : Word), m.Ready f w y → y.toNat % 32 = k →
    m.Gives (.shift .ror) f x

namespace Ready

variable {m : Machine} {f : RegFields} {x y w : Word} (h : m.Ready f x y)
include h

theorem gives_of_wrote {op : RegOp}
    (hExecute : ∃ m', execute (.reg op f) m = .ok () m' ∧ Wrote m m' f.c w) : m.Gives op f w := by
  obtain ⟨m', hExecute, hWrote⟩ := hExecute
  exact ⟨m', hExecute, by rw [hWrote.peek, if_pos ⟨rfl, h.destination⟩], hWrote⟩

theorem execute_arith (op : Arith) :
    execute (.reg (.arith op) f) m =
      (match op.eval? x y with
        | some v => writeRegister f.c v
        | none => throw .divisionByZero : Exec Fault Unit)
        { m with registers := (m.registers.touch f.a.toNat).touch f.b.toNat } := by
  rw [execute, bind_eq_of_ok (readRegister_of_isEnabled h.a),
    bind_eq_of_ok (readRegister_of_isEnabled (by simpa using h.b)), RegisterFile.peek_touch]
  cases hEval : op.eval? x y <;> simp only [h.left, h.right, hEval]

theorem gives_arith {op : Arith} (hEval : op.eval? x y = some w) : m.Gives (.arith op) f w := by
  have hExecute := h.execute_arith op
  simp only [hEval] at hExecute
  rw [writeRegister_of_isEnabled (by simpa using h.c)] at hExecute
  exact h.gives_of_wrote ⟨_, hExecute, wrote_written (by simp) (by simp) h.c w⟩

theorem dividesByZero {op : Arith} (hEval : op.eval? x y = none) : m.DividesByZero (.arith op) f := by
  have hExecute := h.execute_arith op
  simp only [hEval] at hExecute
  exact ⟨_, hExecute, execute_onError _ rfl m (.refl m) _ _ hExecute⟩

theorem gives_shift (op : Shift) : m.Gives (.shift op) f (op.eval x y.toNat) := by
  rw [← h.left, ← h.right]
  exact h.gives_of_wrote (exists_readTwiceThenWrite h.a h.b h.c fun x y => op.eval x y.toNat)

theorem gives_shiftI (op : ShiftI) : m.Gives (.shiftI op) f (op.shift.eval x f.imm5.toNat) := by
  rw [← h.left]
  exact h.gives_of_wrote (exists_readThenWrite h.a h.c fun x => op.shift.eval x f.imm5.toNat)

end Ready

theorem undoneByRor_rol (x : Word) (count : Nat) :
    UndoneByRor x (Shift.rol.eval x count) (count % 32) := by
  intro m f y h hCount
  have hUndone : Shift.ror.eval (Shift.rol.eval x count) y.toNat = x := by
    show (x.rotateLeft (count % 32)).rotateRight (y.toNat % 32) = x
    rw [hCount, rotateRight_rotateLeft]
  rw [← hUndone]
  exact h.gives_shift .ror

/-- What R-format arithmetic makes of the operand words `x` and `y`, as integers. -/
structure ExactArithmetic (m : Machine) (f : RegFields) (x y : Word) : Prop where
  add : ∃ w, m.Gives (.arith .add) f w ∧ w.toNat = (x.toNat + y.toNat) % 2 ^ 32
  sub : ∃ w, m.Gives (.arith .sub) f w ∧ (w.toNat : Int) = ((x.toNat : Int) - y.toNat) % 2 ^ 32
  mulxuu : ∃ high low : Word, m.Gives (.arith .mulxuu) f high ∧ m.Gives (.arith .mul) f low ∧
    high.toNat * 2 ^ 32 + low.toNat = x.toNat * y.toNat
  mulxss : ∃ high low : Word, m.Gives (.arith .mulxss) f high ∧ m.Gives (.arith .mul) f low ∧
    high.toInt * 2 ^ 32 + low.toNat = x.toInt * y.toInt
  mulxsu : ∃ high low : Word, m.Gives (.arith .mulxsu) f high ∧ m.Gives (.arith .mul) f low ∧
    high.toInt * 2 ^ 32 + low.toNat = x.toInt * y.toNat
  fitsUnsigned : (x.setWidth 64).umulOverflow (y.setWidth 64) = false
  fitsSigned : (x.signExtend 64).smulOverflow (y.signExtend 64) = false
  fitsMixed : (x.signExtend 64).smulOverflow (y.setWidth 64) = false
  divu : y ≠ 0 → ∃ w, m.Gives (.arith .divu) f w ∧ w.toNat = x.toNat / y.toNat
  div : y ≠ 0 → ∃ w, m.Gives (.arith .div) f w ∧ (w.toNat : Int) = x.toInt.tdiv y.toInt % 2 ^ 32
  byZero : y = 0 → m.DividesByZero (.arith .divu) f ∧ m.DividesByZero (.arith .div) f
  shift : ∀ op, ∃ w, m.Gives (.shift op) f w ∧ op.Says x (y.toNat % 32) w
  shiftI : ∀ op, ∃ w, m.Gives (.shiftI op) f w ∧ op.shift.Says x f.imm5.toNat w
  undo : ∃ w, m.Gives (.shift .rol) f w ∧ UndoneByRor x w (y.toNat % 32)
  undoI : ∃ w, m.Gives (.shiftI .roli) f w ∧ UndoneByRor x w f.imm5.toNat

/-- R-format arithmetic is exact, whatever the operand registers hold. -/
theorem execute_exactArithmetic {m : Machine} {f : RegFields} {x y : Word} (h : m.Ready f x y) :
    m.ExactArithmetic f x y := by
  have hx := toInt_emod_eq_toNat x
  have hy := toInt_emod_eq_toNat y
  have hMixed : (y.toNat : Int) % 2 ^ 32 = y.toNat := by
    rw [← hy, Int.emod_emod]
  have hImm5 : f.imm5.toNat % 32 = f.imm5.toNat := Nat.mod_eq_of_lt f.imm5.isLt
  exact {
    add := ⟨_, h.gives_arith rfl, BitVec.toNat_add x y⟩
    sub := ⟨_, h.gives_arith rfl, toNat_sub_eq_emod x y⟩
    mulxuu := ⟨_, _, h.gives_arith rfl, h.gives_arith rfl, upperHalf_mul_unsigned x y⟩
    mulxss := by
      have hWhole := upperHalf_mul_signed (x := x) (y := y) (smulOverflow_signed x y)
      rw [toInt_signExtend_eq_toInt, toInt_signExtend_eq_toInt] at hWhole
      exact ⟨_, _, h.gives_arith rfl, h.gives_arith rfl, hWhole hx hy⟩
    mulxsu := by
      have hWhole := upperHalf_mul_signed (x := x) (y := y) (smulOverflow_mixed x y)
      rw [toInt_signExtend_eq_toInt, toInt_setWidth_eq_toNat] at hWhole
      exact ⟨_, _, h.gives_arith rfl, h.gives_arith rfl, hWhole hx hMixed⟩
    fitsUnsigned := umulOverflow_unsigned x y
    fitsSigned := smulOverflow_signed x y
    fitsMixed := smulOverflow_mixed x y
    divu := fun hNonzero => ⟨_, h.gives_arith (if_neg hNonzero), BitVec.toNat_udiv⟩
    div := fun hNonzero => ⟨_, h.gives_arith (if_neg hNonzero), toNat_sdiv_eq_emod x y⟩
    byZero := fun hZero => ⟨h.dividesByZero (if_pos hZero), h.dividesByZero (if_pos hZero)⟩
    shift := fun op => ⟨_, h.gives_shift op, op.says_eval x y.toNat⟩
    shiftI := by
      intro op
      have hSays := op.shift.says_eval x f.imm5.toNat
      rw [hImm5] at hSays
      exact ⟨_, h.gives_shiftI op, hSays⟩
    undo := ⟨_, h.gives_shift .rol, undoneByRor_rol x y.toNat⟩
    undoI := by
      have hUndone := undoneByRor_rol x f.imm5.toNat
      rw [hImm5] at hUndone
      exact ⟨_, h.gives_shiftI .roli, hUndone⟩
  }

/-- The most negative word divided by -1 is itself again, without a fault. -/
theorem execute_exactArithmetic_mostNegative :
    ∃ m : Machine, m.Ready ⟨1, 2, 3, 0⟩ 0x80000000 0xffffffff ∧
      m.Gives (.arith .div) ⟨1, 2, 3, 0⟩ 0x80000000 := by
  let m : Machine :=
    { new with registers := (new.registers.store 1 0x80000000).store 2 0xffffffff }
  have hReady : m.Ready ⟨1, 2, 3, 0⟩ 0x80000000 0xffffffff :=
    ⟨by decide, by decide, by decide, by decide, by decide, by decide⟩
  obtain ⟨w, hGives, hQuotient⟩ := (execute_exactArithmetic hReady).div (by decide)
  have hWord : w = 0x80000000 := by
    have hValue : (0x80000000 : Word).toInt.tdiv (0xffffffff : Word).toInt % 2 ^ 32 =
        (0x80000000 : Word).toNat := by decide
    exact BitVec.eq_of_toNat_eq (by exact_mod_cast hQuotient.trans hValue)
  exact ⟨m, hReady, hWord ▸ hGives⟩

end Machine

end NiosBoard
