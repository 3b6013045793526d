import NiosBoard.Isa.Instruction

/-! # Words of instructions

Every instruction is read back from its word, because no two opcodes share a key and the fields of
a format do not overlap; and a word that decodes has no bit outside the fields of its format, so it
is read back from its instruction. Only one instruction has the zero word: a call of index 0.
-/

namespace NiosBoard

theorem JumpOp.code_ne_regFormatCode (op : JumpOp) : op.code ≠ regFormatCode := by
  cases op <;> decide

/-- The codes of immediate instructions are neither that of register instructions nor 0, that of a
call. -/
theorem ImmOp.code_ne (op : ImmOp) : op.code ≠ regFormatCode ∧ op.code ≠ 0 := by
  rcases op with op | cond | ⟨kind, io⟩ | ⟨width, io⟩ | _ | cond
  · cases op <;> decide
  · cases cond <;> decide
  · cases kind <;> cases io <;> decide
  · cases width <;> cases io <;> decide
  · decide
  · cases cond <;> decide

namespace Opcode

theorem ofKey?_key (o : Opcode) : ofKey? o.key = some o := by
  have hAll : ∀ o ∈ all, ofKey? o.key = some o := by decide
  exact hAll o (mem_all o)

theorem keyOfWord_eq_append (w : Word) :
    keyOfWord w = (if Word.op w = regFormatCode then Word.opx w else 0) ++ Word.op w := by
  unfold keyOfWord
  split
  · rfl
  · exact BitVec.setWidth_eq_append (by decide)

/-- A word holds the codes of the opcode it is looked up as. -/
theorem codes_eq_of_ofWord? {w : Word} {o : Opcode} (h : ofWord? w = some o) :
    o.code = Word.op w ∧
      o.extendedCode = if Word.op w = regFormatCode then Word.opx w else 0 := by
  have hKey : o.key = keyOfWord w := by simpa using List.find?_some h
  rw [keyOfWord_eq_append, key] at hKey
  have hCode := congrArg (BitVec.extractLsb' 0 6) hKey
  have hExtended := congrArg (BitVec.extractLsb' 6 6) hKey
  rw [BitVec.extractLsb'_append_eq_right, BitVec.extractLsb'_append_eq_right] at hCode
  rw [BitVec.extractLsb'_append_eq_left, BitVec.extractLsb'_append_eq_left] at hExtended
  exact ⟨hCode, hExtended⟩

theorem ofLowercase?_mnemonic (o : Opcode) : ofLowercase? o.mnemonic.toList = some o := by
  have hAll : ∀ o ∈ all, ofLowercase? o.mnemonic.toList = some o := by decide
  exact hAll o (mem_all o)

theorem mnemonic_injective {o o' : Opcode} (h : o.mnemonic.toList = o'.mnemonic.toList) : o = o' := by
  have hSame := congrArg ofLowercase? h
  rw [ofLowercase?_mnemonic, ofLowercase?_mnemonic] at hSame
  exact Option.some.inj hSame

theorem ofMnemonic?_eq_some_iff (name : Text) (o : Opcode) :
    ofMnemonic? name = some o ↔ o.mnemonic.toList = Text.lowercase name := by
  constructor
  · intro h
    simpa using List.find?_some h
  · intro h
    rw [ofMnemonic?, ← h, ofLowercase?_mnemonic]

end Opcode

namespace Instruction

/-- The fields of an instruction and what goes into them. -/
def fields : Instruction → List ((f : Field) × BitVec f.width)
  | .jump op index => [⟨.op, op.code⟩, ⟨.imm26, index⟩]
  | .imm op f => [⟨.op, op.code⟩, ⟨.a, f.a⟩, ⟨.b, f.b⟩, ⟨.imm16, f.imm⟩]
  | .reg op f =>
    [⟨.op, regFormatCode⟩, ⟨.opx, op.code⟩, ⟨.a, f.a⟩, ⟨.b, f.b⟩, ⟨.c, f.c⟩, ⟨.imm5, f.imm5⟩]

theorem encode_eq_foldl_set (i : Instruction) :
    i.encode = i.fields.foldl (fun w field => field.1.set w field.2) 0 := by
  refine BitVec.eq_of_getLsbD_eq fun n hn => ?_
  cases i <;>
    simp only [encode, fields, List.foldl_cons, List.foldl_nil, Field.set, Field.mask, Field.low,
      Field.width, BitVec.getLsbD_append, BitVec.getLsbD_or, BitVec.getLsbD_and,
      BitVec.getLsbD_not, BitVec.getLsbD_shiftLeft, BitVec.getLsbD_setWidth,
      BitVec.getLsbD_allOnes]
  · grind
  · grind
  · grind

theorem op_encode (i : Instruction) : Word.op i.encode = i.opcode.code := by
  cases i <;>
    simp (disch := omega) only [encode, opcode, Opcode.code, Word.op, Field.get, Field.low,
      Field.width, BitVec.extractLsb'_append_eq_of_add_le, BitVec.extractLsb'_eq_self]

theorem opx_encode_reg (op : RegOp) (f : RegFields) : Word.opx (encode (.reg op f)) = op.code := by
  simp (disch := omega) only [encode, Word.opx, Field.get, Field.low, Field.width,
    BitVec.extractLsb'_append_eq_of_add_le, BitVec.extractLsb'_append_eq_of_le]
  exact BitVec.extractLsb'_eq_self

theorem keyOfWord_encode (i : Instruction) : Opcode.keyOfWord i.encode = i.opcode.key := by
  rw [Opcode.keyOfWord, op_encode]
  cases i with
  | jump op index =>
    rw [if_neg (show (jump op index).opcode.code ≠ _ from op.code_ne_regFormatCode)]
    exact BitVec.setWidth_eq_append (by decide)
  | imm op f =>
    rw [if_neg (show (imm op f).opcode.code ≠ _ from op.code_ne.1)]
    exact BitVec.setWidth_eq_append (by decide)
  | reg op f =>
    rw [if_pos (show (reg op f).opcode.code = regFormatCode from rfl), opx_encode_reg]
    rfl

theorem ofFields_encode (i : Instruction) : ofFields i.opcode i.encode = i := by
  cases i <;>
    simp (disch := omega) only [ofFields, encode, opcode, Word.a, Word.b, Word.c, Word.imm5,
      Word.imm16, Word.imm26, Field.get, Field.low, Field.width,
      BitVec.extractLsb'_append_eq_of_add_le, BitVec.extractLsb'_append_eq_of_le,
      Nat.reduceSub, BitVec.extractLsb'_eq_self]

theorem decode_encode (i : Instruction) : decode i.encode = .ok i := by
  rw [decode, Opcode.ofWord?, keyOfWord_encode, Opcode.ofKey?_key]
  exact congrArg Except.ok (ofFields_encode i)

theorem encode_ofFields {o : Opcode} {w : Word} (h : Opcode.ofWord? w = some o) :
    (ofFields o w).encode = w := by
  obtain ⟨hCode, hExtended⟩ := Opcode.codes_eq_of_ofWord? h
  cases o with
  | jump op =>
    rw [ofFields, encode, show op.code = Word.op w from hCode]
    exact BitVec.extractLsb'_append_extractLsb'
  | imm op =>
    rw [ofFields, encode, show op.code = Word.op w from hCode]
    simp (disch := decide) only [Word.a, Word.b, Word.imm16, Word.op, Field.get, Field.low,
      Field.width, BitVec.extractLsb'_append_extractLsb'_eq_extractLsb']
    exact BitVec.extractLsb'_eq_self
  | reg op =>
    rw [if_pos (show Word.op w = regFormatCode from hCode.symm)] at hExtended
    rw [ofFields, encode, show op.code = Word.opx w from hExtended,
      show regFormatCode = Word.op w from hCode]
    simp (disch := decide) only [Word.a, Word.b, Word.c, Word.imm5, Word.opx, Word.op, Field.get,
      Field.low, Field.width, BitVec.extractLsb'_append_extractLsb'_eq_extractLsb']
    exact BitVec.extractLsb'_eq_self

theorem decode_eq_ok_iff {w : Word} {i : Instruction} : decode w = .ok i ↔ i.encode = w := by
  constructor
  · intro h
    rw [decode] at h
    split at h
    · next o ho =>
      cases h
      exact encode_ofFields ho
    · cases h
  · rintro rfl
    exact decode_encode i

theorem eq_of_decode_eq_error {w : Word} {e : DecodeError} (h : decode w = .error e) : e = ⟨w⟩ := by
  rw [decode] at h
  split at h
  · cases h
  · cases h
    rfl

theorem decode_eq_error_iff {w : Word} {e : DecodeError} :
    decode w = .error e ↔ e = ⟨w⟩ ∧ ∀ i : Instruction, i.encode ≠ w := by
  constructor
  · intro h
    refine ⟨eq_of_decode_eq_error h, fun i hi => ?_⟩
    rw [decode_eq_ok_iff.mpr hi] at h
    cases h
  · rintro ⟨rfl, hNone⟩
    cases hd : decode w with
    | ok i => exact absurd (decode_eq_ok_iff.mp hd) (hNone i)
    | error e => rw [eq_of_decode_eq_error hd]

/-- The word of an instruction is its fields set in the zero word. A word decodes to the
instruction that has it, and to an error that names it when no instruction does. -/
theorem decode_encode_mutually_inverse :
    (∀ i : Instruction, i.encode = i.fields.foldl (fun w field => field.1.set w field.2) 0) ∧
      ∀ w : Word,
        (∀ i : Instruction, decode w = .ok i ↔ i.encode = w) ∧
          ∀ e : DecodeError, decode w = .error e ↔ e = ⟨w⟩ ∧ ∀ i : Instruction, i.encode ≠ w :=
  ⟨encode_eq_foldl_set, fun _ => ⟨fun _ => decode_eq_ok_iff, fun _ => decode_eq_error_iff⟩⟩

/-- A call of index 0 is the only instruction whose word is zero. -/
theorem encode_eq_zero_iff (i : Instruction) : i.encode = 0 ↔ i = .jump .call 0 := by
  constructor
  · intro h
    have hOp := op_encode i
    rw [h] at hOp
    cases i with
    | jump op index =>
      cases op with
      | call =>
        have hIndex := ofFields_encode (.jump .call index)
        rw [h] at hIndex
        exact hIndex.symm
      | jmpi => exact absurd hOp (show Word.op 0 ≠ JumpOp.jmpi.code by decide)
    | imm op f => exact absurd hOp.symm op.code_ne.2
    | reg op f => exact absurd hOp (show Word.op 0 ≠ regFormatCode by decide)
  · rintro rfl
    rfl

end Instruction

end NiosBoard
