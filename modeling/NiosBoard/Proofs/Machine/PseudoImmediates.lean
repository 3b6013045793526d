import NiosBoard.Proofs.Machine.PseudoSteps

/-! # Pseudo-instructions with immediates

A comparison with an immediate is turned around by adding one to it, and `subi` by negating it; both
are then cut to 16 bits. At one end of the range the result is no longer in it and wraps around to
the other end. An address takes two immediates, of which the first makes up for the sign of the
second.
-/

namespace NiosBoard

theorem toInt_operand_signed (f : ImmFields) : f.signed.toInt = f.imm.toInt :=
  BitVec.toInt_signExtend_of_le (by decide)

theorem toNat_operand_signed (f : ImmFields) : (f.signed.toNat : Int) = f.imm.toInt % 2 ^ 32 := by
  have hInt := toInt_operand_signed f
  rw [BitVec.toInt_eq_toNat_cond] at hInt
  split at hInt <;> omega

theorem toNat_operand_unsigned (f : ImmFields) : f.unsigned.toNat = f.imm.toNat := by
  have hLt := f.imm.isLt
  rw [ImmFields.unsigned, BitVec.toNat_setWidth]
  omega

namespace Order

/-- The order between a word and a number. -/
def SaysInt (o : Order) (x : Word) (n : Int) : Prop :=
  match o with
  | .gt => x.toInt > n
  | .gtu => x.toNat > n
  | .le => x.toInt ≤ n
  | .leu => x.toNat ≤ n

instance (o : Order) (x : Word) (n : Int) : Decidable (o.SaysInt x n) :=
  match o with
  | .gt => inferInstanceAs (Decidable (x.toInt > n))
  | .gtu => inferInstanceAs (Decidable ((x.toNat : Int) > n))
  | .le => inferInstanceAs (Decidable (x.toInt ≤ n))
  | .leu => inferInstanceAs (Decidable ((x.toNat : Int) ≤ n))

def low : Order → Int
  | .gt => -32768
  | .le => -32768
  | _ => 0

def high : Order → Int
  | .gt => 32767
  | .le => 32767
  | _ => 65535

/-- The number that is compared with: the last one of the range is taken for the one before the
first. -/
def compared (o : Order) (n : Int) : Int := if n = o.high then o.low - 1 else n

theorem toNat_setWidth_add_one (v : Value) :
    (((v + 1).setWidth 16).toNat : Int) = (v.toInt + 1) % 2 ^ 16 := by
  have hValue := toInt_emod_eq_toNat v
  rw [BitVec.toNat_setWidth, BitVec.toNat_add, show (1 : BitVec 64).toNat = 1 from rfl]
  omega

/-- Beyond the immediate is what the operand names, but for the last of the range. -/
theorem holds_beyond_iff {o : Order} {v : Value} (hLow : o.low ≤ v.toInt) (hHigh : v.toInt ≤ o.high)
    (x : Word) (a c : RegIndex) :
    o.beyond.holds x (o.beyond.operand ⟨a, c, (v + 1).setWidth 16⟩) = true ↔
      o.SaysInt x (o.compared v.toInt) := by
  have hNext := toNat_setWidth_add_one v
  have hInt := BitVec.toInt_eq_toNat_cond ((v + 1).setWidth 16)
  rw [Condition.holds_iff]
  -- one more than the last number of the range is not in the range any more
  cases o with
  | gt | le =>
    simp only [beyond, Condition.operand, Condition.Says, toInt_operand_signed, SaysInt, compared, low,
      high] at hLow hHigh ⊢
    by_cases hLast : v.toInt = 32767 <;> simp only [hLast, if_true, if_false] <;>
      split at hInt <;> omega
  | gtu | leu =>
    simp only [beyond, Condition.operand, Condition.Says, toNat_operand_unsigned, SaysInt, compared,
      low, high] at hLow hHigh ⊢
    by_cases hLast : v.toInt = 65535 <;> simp only [hLast, if_true, if_false] <;> omega

end Order

/-- The number that `subi` takes away: the first one of the range is taken for its negation. -/
def subtracted (n : Int) : Int := if n = -32768 then 32768 else n

theorem eval_negated {v : Value} (hLow : -32768 ≤ v.toInt) (hHigh : v.toInt ≤ 32767) (x : Word)
    (a c : RegIndex) :
    ArithI.addi.eval x ⟨a, c, (-v).setWidth 16⟩ = x - BitVec.ofInt 32 (subtracted v.toInt) := by
  have hValue := toInt_emod_eq_toNat v
  have hNat : (((-v).setWidth 16).toNat : Int) = (-v.toInt) % 2 ^ 16 := by
    rw [BitVec.toNat_setWidth, BitVec.toNat_neg]
    omega
  have hInt : ((-v).setWidth 16).toInt = -subtracted v.toInt := by
    rw [BitVec.toInt_eq_toNat_cond, subtracted]
    split <;> split <;> omega
  rw [ArithI.eval, ImmFields.signed, BitVec.signExtend, hInt, BitVec.ofInt_neg, BitVec.sub_eq_add_neg]

/-- What the call writes where, with the registers as in `r`. Immediates are in the range of their
field, and no register that is read or written is disabled. -/
inductive PseudoOp.MeansImmediate (symbols : Symbols) (r : RegisterFile) :
    PseudoOp → List Text → RegIndex → Word → Prop
  | compareI {o : Order} {x y t : Text} {a c : RegIndex} {v : Value} (hx : Names x c)
      (hy : Names y a) (hv : Expression.evaluate symbols t = .ok v) (hLow : o.low ≤ v.toInt)
      (hHigh : v.toInt ≤ o.high) (hc : r.isEnabled c.toNat = true)
      (ha : r.isEnabled a.toNat = true) :
      MeansImmediate symbols r (.compareI o) [x, y, t] c
        (if o.SaysInt (r.peek a.toNat) (o.compared v.toInt) then 1 else 0)
  | subi {x y t : Text} {a c : RegIndex} {v : Value} (hx : Names x c) (hy : Names y a)
      (hv : Expression.evaluate symbols t = .ok v) (hLow : -32768 ≤ v.toInt)
      (hHigh : v.toInt ≤ 32767) (hc : r.isEnabled c.toNat = true)
      (ha : r.isEnabled a.toNat = true) :
      MeansImmediate symbols r .subi [x, y, t] c
        (r.peek a.toNat - BitVec.ofInt 32 (subtracted v.toInt))

namespace Machine

variable {source : Text} {p : Program} {d : Draft} {q : PseudoOp} {operands : List Text}
  {m : Machine} {c : RegIndex} {w : Word}

/-- One step from a comparison with an immediate, or from `subi`, does what the name says for every
immediate of the range but one; that one is taken for another number. -/
theorem immediate_pseudo_instructions_mean (hCall : CallsPseudo source d q operands)
    (h : AboutTo source p d.code.size m)
    (hMeans : q.MeansImmediate p.symbol? m.registers operands c w) :
    ∃ m', step m = .ok true m' ∧ Stepped m m' (m.pc + 4) c w := by
  cases hMeans with
  | @compareI o x y t a c v hx hy hv hLow hHigh hc ha =>
    have hWord := (hCall.word_eq_encode h.assembled (.compareI hx hy hv) (k := 0) rfl).2
    have hStep := h.exists_step_compareI ha hc hWord
    simp only [flag, Order.holds_beyond_iff hLow hHigh] at hStep
    exact hStep
  | @subi x y t a c v hx hy hv hLow hHigh hc ha =>
    have hWord := (hCall.word_eq_encode h.assembled (.subi hx hy hv) (k := 0) rfl).2
    have hStep := h.exists_step_arithI ha hc hWord
    rwa [eval_negated hLow hHigh] at hStep

def roomSource : Text := "subi sp, SP, 2 * 4\n".toList

theorem immediate_pseudo_instructions_mean_roomSource :
    ∃ p m', assemble roomSource = .ok p ∧ step (new.loaded p 0) = .ok true m' ∧
      m'.registers.peek RegIndex.stackPointer.toNat = Board.stackTop - 8 := by
  have hCall : CallsPseudo roomSource Draft.new .subi ["sp".toList, "SP".toList, "2 * 4".toList] :=
    callsPseudo_of_line "subi sp, SP, 2 * 4".toList "subi".toList " sp, SP, 2 * 4".toList
      (by decide +kernel)
  have hAccepted : (assemble roomSource).toOption.map (fun p =>
      (p.length, p.image.size, (Expression.evaluate p.symbol? "2 * 4".toList).toOption)) =
        some (1, 8, some 8) := by decide +kernel
  obtain ⟨p, hp, h, -, -, hEight⟩ := exists_aboutTo_new hAccepted (by decide) (by decide)
  have hLower : Names "sp".toList RegIndex.stackPointer := by decide +kernel
  have hUpper : Names "SP".toList RegIndex.stackPointer := by decide +kernel
  have hEnabled := isEnabled_loaded_new p 0 (i := RegIndex.stackPointer.toNat) (by decide)
  have hPeek : (new.loaded p 0).registers.peek RegIndex.stackPointer.toNat = Board.stackTop := by
    rw [RegisterFile.peek, cell_loaded_new p 0 (by decide)]
    rfl
  obtain ⟨m', hStep, hStepped⟩ := immediate_pseudo_instructions_mean hCall h
    (.subi hLower hUpper (toOption_eq_some_iff.mp hEight) (by decide) (by decide) hEnabled hEnabled)
  refine ⟨p, m', hp, hStep, ?_⟩
  rw [hStepped.peek_self (by decide), hPeek]
  decide

def lastImmediateSource : Text := "cmpgti r2, r3, 32767\n".toList

theorem zero_exceeds_last_immediate :
    ∃ p m', assemble lastImmediateSource = .ok p ∧
      Expression.evaluate p.symbol? "32767".toList = .ok 32767 ∧
      (new.loaded p 0).registers.peek 3 = 0 ∧ step (new.loaded p 0) = .ok true m' ∧
      m'.registers.peek 2 = 1 := by
  have hCall : CallsPseudo lastImmediateSource Draft.new (.compareI .gt)
      ["r2".toList, "r3".toList, "32767".toList] :=
    callsPseudo_of_line "cmpgti r2, r3, 32767".toList "cmpgti".toList " r2, r3, 32767".toList
      (by decide +kernel)
  have hAccepted : (assemble lastImmediateSource).toOption.map (fun p =>
      (p.length, p.image.size, (Expression.evaluate p.symbol? "32767".toList).toOption)) =
        some (1, 8, some 32767) := by decide +kernel
  obtain ⟨p, hp, h, -, -, hLast⟩ := exists_aboutTo_new hAccepted (by decide) (by decide)
  have hv := toOption_eq_some_iff.mp hLast
  have hTwo : Names "r2".toList 2 := by decide +kernel
  have hThree : Names "r3".toList 3 := by decide +kernel
  have hPeek : (new.loaded p 0).registers.peek (3 : RegIndex).toNat = 0 :=
    peek_loaded_new p 0 (by decide) (by decide)
  obtain ⟨m', hStep, hStepped⟩ := h.exists_step_compareI
    (isEnabled_loaded_new p 0 (i := (3 : RegIndex).toNat) (by decide))
    (isEnabled_loaded_new p 0 (i := (2 : RegIndex).toNat) (by decide))
    (hCall.word_eq_encode hp (.compareI hTwo hThree hv) (k := 0) rfl).2
  refine ⟨p, m', hp, hv, hPeek, hStep, (hStepped.peek_self (by decide)).trans ?_⟩
  rw [hPeek]
  decide

end Machine

/-! ### Addresses -/

theorem toInt_hiadj (x : Value) :
    (Relocation.hiadj.apply x).toInt = (x.toInt / 2 ^ 16 + x.toInt / 2 ^ 15 % 2) % 2 ^ 16 := by
  rw [Relocation.apply_eq_meaning, Relocation.meaning]
  exact BitVec.toInt_ofInt_eq_self (by decide) (by omega) (by omega)

theorem toInt_lo (x : Value) : (Relocation.lo.apply x).toInt = x.toInt % 2 ^ 16 := by
  rw [Relocation.apply_eq_meaning, Relocation.meaning]
  exact BitVec.toInt_ofInt_eq_self (by decide) (by omega) (by omega)

/-- The upper half is one more where the lower half counts as negative. -/
theorem toInt_hiadj_add_lo (x : Value) :
    ((Relocation.hiadj.apply x).toInt * 2 ^ 16 +
      ((Relocation.lo.apply x).setWidth 16).toInt) % 2 ^ 32 = x.toInt % 2 ^ 32 := by
  have hLower := toNat_setWidth_eq_emod (n := 16) (by decide) (Relocation.lo.apply x)
  rw [toInt_lo] at hLower
  rw [toInt_hiadj, BitVec.toInt_eq_toNat_cond ((Relocation.lo.apply x).setWidth 16)]
  generalize x.toInt = n at *
  split <;> omega

theorem toNat_addi_orhi (v : Value) (a b c : RegIndex) :
    ((ArithI.addi.eval (ArithI.orhi.eval 0#32 ⟨a, c, (Relocation.hiadj.apply v).setWidth 16⟩)
      ⟨b, c, (Relocation.lo.apply v).setWidth 16⟩).toNat : Int) = v.toInt % 2 ^ 32 := by
  have hUpper := toNat_setWidth_eq_emod (n := 16) (by decide) (Relocation.hiadj.apply v)
  have hLower : ((ImmFields.signed ⟨b, c, (Relocation.lo.apply v).setWidth 16⟩).toNat : Int) =
      ((Relocation.lo.apply v).setWidth 16).toInt % 2 ^ 32 := toNat_operand_signed _
  have hFits := toInt_hiadj v
  rw [← toInt_hiadj_add_lo]
  simp only [ArithI.eval, BitVec.zero_or, BitVec.toNat_add, toNat_upper]
  omega

namespace Machine

def moviaInstructions (c : RegIndex) (v : Value) : List Instruction :=
  [.imm (.arith .orhi) ⟨0, c, (Relocation.hiadj.apply v).setWidth 16⟩,
    .imm (.arith .addi) ⟨c, c, (Relocation.lo.apply v).setWidth 16⟩]

section Movia

variable {source : Text} {p : Program} {d : Draft} {x t : Text} {m : Machine} {c : RegIndex}
  {v : Value}

theorem word_of_movia (hCall : CallsPseudo source d .movia [x, t]) (hp : assemble source = .ok p)
    (hx : Names x c) (hv : Expression.evaluate p.symbol? t = .ok v) {k : Nat} {ins : Instruction}
    (hk : (moviaInstructions c v)[k]? = some ins) :
    d.code.size + k < p.length ∧ p.word (4 * (d.code.size + k)) = ins.encode :=
  hCall.word_eq_encode hp (.movia hx hv) hk

/-- The second step finds in the register what the first one has left there. -/
theorem exists_steps_of_movia (hCall : CallsPseudo source d .movia [x, t])
    (h : AboutTo source p d.code.size m)
    (hIntact : m.memory.peek .word (m.pc + 4) = .ok (p.word (4 * (d.code.size + 1))))
    (hx : Names x c) (hc : c ≠ 0) (hv : Expression.evaluate p.symbol? t = .ok v)
    (hEnabled : m.registers.isEnabled c.toNat = true) (hZero : m.registers.isEnabled 0 = true) :
    ∃ m₁ m₂, step m = .ok true m₁ ∧ step m₁ = .ok true m₂ ∧
      ((m₂.registers.peek c.toNat).toNat : Int) = v.toInt % 2 ^ 32 ∧
      ∀ j ≠ c.toNat, m₂.registers.peek j = m.registers.peek j := by
  obtain ⟨-, hUpper⟩ := word_of_movia hCall h.assembled hx hv (k := 0) rfl
  obtain ⟨hLt, hLower⟩ := word_of_movia hCall h.assembled hx hv (k := 1) rfl
  obtain ⟨m₁, hStep₁, hStepped₁⟩ := h.exists_step_arithI (a := 0) hZero hEnabled hUpper
  have h₁ := h.next hStep₁ hStepped₁ hLt hIntact
  have hEnabled₁ := (hStepped₁.enabled c.toNat).trans hEnabled
  obtain ⟨m₂, hStep₂, hStepped₂⟩ := h₁.exists_step_arithI hEnabled₁ hEnabled₁ hLower
  have hZeroPeek : m.registers.peek (0 : RegIndex).toNat = 0#32 := h.loaded.reachable.peek_zero
  refine ⟨m₁, m₂, hStep₁, hStep₂, ?_, fun j hj => ?_⟩
  · rw [hStepped₂.peek_self hc, hStepped₁.peek_self hc, hZeroPeek]
    exact toNat_addi_orhi v 0 c c
  · rw [hStepped₂.peek_of_ne hj, hStepped₁.peek_of_ne hj]

end Movia

/-- The two halves of a number add up to it in 32 bits. A call of `movia` whose second operand has a
value is accepted wherever an instruction is, and two steps from it leave that value in the register
and all others as they were. -/
theorem movia_builds_value {x t : Text} {c : RegIndex} (hx : Names x c) (hc : c ≠ 0) :
    (∀ n : Value, ((Relocation.hiadj.apply n).toInt * 2 ^ 16 +
      ((Relocation.lo.apply n).setWidth 16).toInt) % 2 ^ 32 = n.toInt % 2 ^ 32) ∧
    (∀ (d d₁ : Draft) (raw : Text) (line : Nat) (symbols : Symbols) (v : Value),
      d.ReadsCall raw .movia [x, t] → Expression.evaluate symbols t = .ok v →
      d.labelled line (d.substituteConstants (Text.said raw)) = .ok d₁ → d₁.region = .text →
      ∃ ps : List Pending, d.readLine line raw = .ok { d₁ with code := d₁.code ++ ps.toArray } ∧
        List.Forall₂ (fun ins q => Pending.instruction q symbols = .ok ins)
          (moviaInstructions c v) ps) ∧
    ∀ (source : Text) (p : Program) (d : Draft) (m : Machine) (v : Value),
      CallsPseudo source d .movia [x, t] → AboutTo source p d.code.size m →
      m.memory.peek .word (m.pc + 4) = .ok (p.word (4 * (d.code.size + 1))) →
      Expression.evaluate p.symbol? t = .ok v → m.registers.isEnabled c.toNat = true →
      m.registers.isEnabled 0 = true →
      (∀ k ins, (moviaInstructions c v)[k]? = some ins →
        p.word (4 * (d.code.size + k)) = ins.encode) ∧
      ∃ m₁ m₂, step m = .ok true m₁ ∧ step m₁ = .ok true m₂ ∧
        ((m₂.registers.peek c.toNat).toNat : Int) = v.toInt % 2 ^ 32 ∧
        ∀ j ≠ c.toNat, m₂.registers.peek j = m.registers.peek j := by
  refine ⟨toInt_hiadj_add_lo, fun d d₁ raw line symbols v hCall hv hLabels hRegion => ?_,
    fun source p d m v hCall h hIntact hv hEnabled hZero => ⟨fun k ins hk => ?_, ?_⟩⟩
  · exact hCall.exists_readLine (.movia hx hv) hLabels hRegion
  · exact (word_of_movia hCall h.assembled hx hv hk).2
  · exact exists_steps_of_movia hCall h hIntact hx hc hv hEnabled hZero

def wrapSource : Text := "movia R4, 0xFFFF8000 + 4\n".toList

theorem movia_builds_value_wrapSource :
    ∃ p m₁ m₂, assemble wrapSource = .ok p ∧ step (new.loaded p 0) = .ok true m₁ ∧
      step m₁ = .ok true m₂ ∧ m₂.registers.peek 4 = 0xFFFF8004 := by
  have hCall : CallsPseudo wrapSource Draft.new .movia ["R4".toList, "0xFFFF8000 + 4".toList] :=
    callsPseudo_of_line "movia R4, 0xFFFF8000 + 4".toList "movia".toList " R4, 0xFFFF8000 + 4".toList
      (by decide +kernel)
  have hAccepted : (assemble wrapSource).toOption.map (fun p => (p.length, p.image.size,
      (Expression.evaluate p.symbol? "0xFFFF8000 + 4".toList).toOption)) =
        some (2, 12, some 0xFFFF8004) := by decide +kernel
  obtain ⟨p, hp, h, -, hSize, hValue⟩ := exists_aboutTo_new hAccepted (by decide) (by decide)
  have hFour : Names "R4".toList 4 := by decide +kernel
  have hIntact := peek_loaded (a := 4) 0 .refl (by rw [hSize]; decide) (by rw [hSize]; decide)
  obtain ⟨-, m₁, m₂, hStep₁, hStep₂, hPeek, -⟩ :=
    (movia_builds_value hFour (by decide)).2.2 wrapSource p Draft.new (new.loaded p 0) 0xFFFF8004
      hCall h hIntact (toOption_eq_some_iff.mp hValue)
      (isEnabled_loaded_new p 0 (by decide)) (isEnabled_loaded_new p 0 (by decide))
  refine ⟨p, m₁, m₂, hp, hStep₁, hStep₂, BitVec.eq_of_toNat_eq (Int.ofNat_inj.mp ?_)⟩
  exact hPeek

end Machine

end NiosBoard
