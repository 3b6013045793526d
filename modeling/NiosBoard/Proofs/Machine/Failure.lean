import NiosBoard.Proofs.Machine.Transfer

/-! # Instructions that fail

An instruction makes every check before it writes, so one that fails leaves registers, memory,
devices and listeners as they were. What differs is which registers count as read, and the program
counter of a call that has jumped when it turns out that its link cannot be stored.
-/

namespace NiosBoard.Machine

variable {ε α β : Type}

theorem bind_eq_error {x : Exec ε α} {f : α → Exec ε β} {m m' : Machine} {e : ε}
    (h : (x >>= f) m = .error e m') :
    x m = .error e m' ∨ ∃ a m₁, x m = .ok a m₁ ∧ f a m₁ = .error e m' := by
  change EStateM.bind x f m = _ at h
  unfold EStateM.bind at h
  cases hx : x m with
  | ok a m₁ =>
    rw [hx] at h
    exact .inr ⟨a, m₁, rfl, h⟩
  | error e₁ m₁ =>
    rw [hx] at h
    cases h
    exact .inl rfl

theorem bind_eq_of_error {x : Exec ε α} (f : α → Exec ε β) {m m' : Machine} {e : ε}
    (h : x m = .error e m') : (x >>= f) m = .error e m' := by
  show EStateM.bind x f m = _
  rw [EStateM.bind, h]

/-- What a computation leaves behind when it fails satisfies `P` if what it began with does. -/
def PreservesOnError (P : Machine → Prop) (x : Exec ε α) : Prop :=
  ∀ m, P m → ∀ e m', x m = .error e m' → P m'

/-- A failure leaves the machine alone. -/
def Atomic (x : Exec ε α) : Prop := ∀ m e m', x m = .error e m' → m' = m

section Failures

variable {P : Machine → Prop} {x : Exec ε α} {f : α → Exec ε β}

theorem Preserves.onError (h : Preserves P x) : PreservesOnError P x := by
  intro m hm e m' hError
  have hLeft := h m hm
  rw [hError] at hLeft
  exact hLeft

theorem Atomic.onError (h : Atomic x) : PreservesOnError P x := by
  intro m hm e m' hError
  rw [h m e m' hError]
  exact hm

theorem PreservesOnError.bind (hx : Preserves P x) (hf : ∀ a, PreservesOnError P (f a)) :
    PreservesOnError P (x >>= f) := by
  intro m hm e m' hError
  rcases bind_eq_error hError with hFirst | ⟨a, m₁, hFirst, hThen⟩
  · exact hx.onError m hm e m' hFirst
  · have hLeft := hx m hm
    rw [hFirst] at hLeft
    exact hf a m₁ hLeft e m' hThen

end Failures

/-! ### The parts of an instruction -/

theorem loadMemory_eq (width : Width) (address : Word) (m : Machine) :
    loadMemory width address m =
      match m.memory.read width address with
      | .error e => .error (.memory e) m
      | .ok (v, memory) => .ok v { m with memory := memory } := by
  rw [loadMemory, Memory.read]
  cases m.memory.checkMapped (Memory.accessed address width.bytes) <;> rfl

theorem storeMemory_eq (width : Width) (address v : Word) (m : Machine) :
    storeMemory width address v m =
      match m.memory.write width address v with
      | .error e => .error (.memory e) m
      | .ok (memory, events) =>
        .ok () { m with memory := memory, bus := m.bus.publishAll events } := by
  rw [storeMemory, Memory.write]
  cases m.memory.checkWritable (Memory.accessed address width.bytes) <;> rfl

theorem setPc_atomic (pc : Word) : Atomic (setPc pc) := by
  intro m e m' h
  unfold setPc at h
  split at h <;> cases h
  rfl

theorem jump_atomic (target : Word) : Atomic (jump target) := by
  intro m e m' h
  unfold jump at h
  split at h
  · cases h
    rfl
  · exact setPc_atomic _ m e m' h

theorem checkRegister_atomic (i : RegIndex) : Atomic (checkRegister i) := by
  intro m e m' h
  unfold checkRegister at h
  split at h <;> cases h
  rfl

theorem readRegister_atomic (i : RegIndex) : Atomic (readRegister i) := by
  intro m e m' h
  unfold readRegister at h
  split at h <;> cases h
  rfl

theorem writeRegister_atomic (i : RegIndex) (w : Word) : Atomic (writeRegister i w) := by
  intro m e m' h
  unfold writeRegister at h
  split at h <;> cases h
  rfl

theorem loadMemory_atomic (width : Width) (address : Word) : Atomic (loadMemory width address) := by
  intro m e m' h
  unfold loadMemory at h
  split at h <;> cases h
  rfl

theorem storeMemory_atomic (width : Width) (address w : Word) :
    Atomic (storeMemory width address w) := by
  intro m e m' h
  unfold storeMemory at h
  split at h <;> cases h
  rfl

theorem of_checkRegister_eq_ok {i : RegIndex} {u : Unit} {m m' : Machine}
    (h : checkRegister i m = .ok u m') : m' = m ∧ m.registers.isEnabled i.toNat = true := by
  unfold checkRegister at h
  split at h
  · cases h
  next hCheck =>
  cases h
  refine ⟨rfl, ?_⟩
  unfold RegisterFile.check at hCheck
  split at hCheck
  · assumption
  · cases hCheck

theorem registers_of_loadMemory_eq_ok {width : Width} {address v : Word} {m m' : Machine}
    (h : loadMemory width address m = .ok v m') : m'.registers = m.registers := by
  unfold loadMemory at h
  split at h <;> cases h
  rfl

/-- The destination is checked before memory is touched, so the write of what was loaded cannot
fail. -/
theorem loadInto_atomic (i : RegIndex) (width : Width) (address : Word) (g : Word → Word) :
    Atomic (do
      checkRegister i
      let v ← loadMemory width address
      writeRegister i (g v)) := by
  intro m e m' h
  rcases bind_eq_error h with hCheck | ⟨u, m₁, hCheck, hThen⟩
  · exact checkRegister_atomic i m e m' hCheck
  obtain ⟨rfl, hEnabled⟩ := of_checkRegister_eq_ok hCheck
  rcases bind_eq_error hThen with hLoad | ⟨v, m₂, hLoad, hWrite⟩
  · exact loadMemory_atomic width address m₁ e m' hLoad
  · rw [← registers_of_loadMemory_eq_ok hLoad] at hEnabled
    rw [writeRegister, RegisterFile.check_of_isEnabled hEnabled] at hWrite
    cases hWrite

theorem isEnabled_of_writeRegister_eq_error {i : RegIndex} {w : Word} {f : Fault} {m m' : Machine}
    (h : writeRegister i w m = .error f m') : m.registers.isEnabled i.toNat = false := by
  rw [← Bool.not_eq_true]
  intro hEnabled
  rw [writeRegister, RegisterFile.check_of_isEnabled hEnabled] at h
  cases h

theorem of_jump_eq_ok {target : Word} {u : Unit} {m m' : Machine} (h : jump target m = .ok u m') :
    m' = { m with pc := target - 4 } := by
  by_cases hAligned : target.toNat % 4 = 0
  · rw [jump_of_aligned hAligned] at h
    cases h
    rfl
  · rw [jump, if_pos hAligned] at h
    cases h

/-- A call that fails has not moved, unless it has jumped and finds no place for its link. -/
theorem jump_link_error {target w : Word} {f : Fault} {m m' : Machine}
    (h : (do jump target; writeRegister RegIndex.returnAddress w) m = .error f m') :
    m' = m ∨ m' = { m with pc := target - 4 } ∧
      m.registers.isEnabled RegIndex.returnAddress.toNat = false := by
  rcases bind_eq_error h with hJump | ⟨u, m₁, hJump, hWrite⟩
  · exact .inl (jump_atomic target m f m' hJump)
  · cases of_jump_eq_ok hJump
    have hDisabled := isEnabled_of_writeRegister_eq_error hWrite
    exact .inr ⟨writeRegister_atomic _ _ _ f m' hWrite, hDisabled⟩

/-! ### Whole instructions -/

/-- The machines agree on everything but the program counter and what happened to the registers. -/
structure Agrees (m m' : Machine) : Prop where
  value : ∀ i, m'.registers.peek i = m.registers.peek i
  enabled : ∀ i, m'.registers.isEnabled i = m.registers.isEnabled i
  state : m'.state = m.state
  steps : m'.steps = m.steps
  bus : m'.bus = m.bus
  snapshot : m'.snapshot = m.snapshot
  memory : m'.memory = m.memory

theorem Agrees.refl (m : Machine) : Agrees m m :=
  ⟨fun _ => rfl, fun _ => rfl, rfl, rfl, rfl, rfl, rfl⟩

theorem Agrees.trans {m₁ m₂ m₃ : Machine} (h : Agrees m₁ m₂) (h' : Agrees m₂ m₃) :
    Agrees m₁ m₃ where
  value i := (h'.value i).trans (h.value i)
  enabled i := (h'.enabled i).trans (h.enabled i)
  state := h'.state.trans h.state
  steps := h'.steps.trans h.steps
  bus := h'.bus.trans h.bus
  snapshot := h'.snapshot.trans h.snapshot
  memory := h'.memory.trans h.memory

/-- Reading registers moves nothing else. -/
structure Unmoved (m m' : Machine) : Prop extends Agrees m m' where
  pc : m'.pc = m.pc

theorem Unmoved.refl (m : Machine) : Unmoved m m := ⟨.refl m, rfl⟩

section Unmoved

variable {m₀ : Machine}

theorem readRegister_unmoved (i : RegIndex) : Preserves (Unmoved m₀) (readRegister i) := by
  intro m hm
  unfold readRegister
  split
  · exact hm
  · refine ⟨hm.toAgrees.trans ⟨?_, ?_, rfl, rfl, rfl, rfl, rfl⟩, hm.pc⟩
    · intro j
      exact m.registers.peek_touch i.toNat j
    · intro j
      exact m.registers.isEnabled_touch i.toNat j

theorem getPc_unmoved : Preserves (Unmoved m₀) getPc := fun _ hm => hm

theorem effectiveAddress_unmoved (f : ImmFields) : Preserves (Unmoved m₀) (effectiveAddress f) :=
  (readRegister_unmoved f.a).bind fun _ => .pure _

end Unmoved

/-- Where an instruction jumps that stores a link. -/
def linkTarget? (m : Machine) : Instruction → Option Word
  | .jump .call index => some (Instruction.jumpTarget m.pc index)
  | .reg .callr f => some (m.registers.peek f.a.toNat)
  | _ => none

/-- Everything an instruction does before its last part is to read registers, and its last part
fails without a trace. -/
theorem execute_onError {m₀ : Machine} (i : Instruction) (hLink : linkTarget? m₀ i = none) :
    PreservesOnError (Unmoved m₀) (execute i) := by
  cases i with
  | jump op index =>
    cases op with
    | call => cases hLink
    | jmpi => exact .bind getPc_unmoved fun _ => (jump_atomic _).onError
  | imm op f =>
    cases op with
    | arith op => exact .bind (readRegister_unmoved _) fun _ => (writeRegister_atomic _ _).onError
    | compare cond =>
      exact .bind (readRegister_unmoved _) fun _ => (writeRegister_atomic _ _).onError
    | load kind io =>
      exact .bind (effectiveAddress_unmoved f) fun address =>
        (loadInto_atomic f.b kind.width address kind.extend).onError
    | store width io =>
      exact .bind (effectiveAddress_unmoved f) fun _ => .bind (readRegister_unmoved _) fun _ =>
        (storeMemory_atomic _ _ _).onError
    | br => exact .bind getPc_unmoved fun _ => (setPc_atomic _).onError
    | branch cond =>
      apply PreservesOnError.bind (readRegister_unmoved _)
      intro a
      apply PreservesOnError.bind (readRegister_unmoved _)
      intro b
      split
      · exact .bind getPc_unmoved fun _ => (setPc_atomic _).onError
      · exact (Preserves.pure _).onError
  | reg op f =>
    cases op with
    | arith op =>
      apply PreservesOnError.bind (readRegister_unmoved _)
      intro a
      apply PreservesOnError.bind (readRegister_unmoved _)
      intro b
      split
      · exact (writeRegister_atomic _ _).onError
      · exact (Preserves.throw _).onError
    | compare cond =>
      exact .bind (readRegister_unmoved _) fun _ => .bind (readRegister_unmoved _) fun _ =>
        (writeRegister_atomic _ _).onError
    | shift op =>
      exact .bind (readRegister_unmoved _) fun _ => .bind (readRegister_unmoved _) fun _ =>
        (writeRegister_atomic _ _).onError
    | shiftI op => exact .bind (readRegister_unmoved _) fun _ => (writeRegister_atomic _ _).onError
    | jmp => exact .bind (readRegister_unmoved _) fun _ => (jump_atomic _).onError
    | callr => cases hLink
    | ret => exact .bind (readRegister_unmoved _) fun _ => (jump_atomic _).onError
    | nextpc => exact .bind getPc_unmoved fun _ => (writeRegister_atomic _ _).onError

theorem of_readRegister_eq_ok {i : RegIndex} {v : Word} {m m' : Machine}
    (h : readRegister i m = .ok v m') :
    v = m.registers.peek i.toNat ∧ m' = { m with registers := m.registers.touch i.toNat } := by
  unfold readRegister at h
  split at h <;> cases h
  exact ⟨rfl, rfl⟩

/-- An instruction that fails has read registers, or it has jumped and then found register 31
disabled. -/
theorem execute_error_cases {i : Instruction} {m m' : Machine} {f : Fault}
    (h : execute i m = .error f m') :
    Unmoved m m' ∨ Agrees m m' ∧ m.registers.isEnabled RegIndex.returnAddress.toNat = false ∧
      linkTarget? m i = some (m'.pc + 4) := by
  have hStays : linkTarget? m i = none → Unmoved m m' := fun hLink =>
    execute_onError i hLink m (.refl m) f m' h
  cases i with
  | jump op index =>
    cases op with
    | jmpi => exact .inl (hStays rfl)
    | call =>
      rw [execute, bind_eq_of_ok (getPc_eq m)] at h
      rcases jump_link_error h with rfl | ⟨rfl, hDisabled⟩
      · exact .inl (.refl _)
      · refine .inr ⟨⟨fun _ => rfl, fun _ => rfl, rfl, rfl, rfl, rfl, rfl⟩, hDisabled, ?_⟩
        rw [linkTarget?, BitVec.sub_add_cancel]
  | imm op f => exact .inl (hStays rfl)
  | reg op f =>
    cases op with
    | callr =>
      rw [execute] at h
      rcases bind_eq_error h with hRead | ⟨v, m₁, hRead, hJump⟩
      · rw [readRegister_atomic _ _ _ _ hRead]
        exact .inl (.refl _)
      have hUnmoved := readRegister_unmoved f.a m (.refl m)
      rw [hRead] at hUnmoved
      obtain ⟨rfl, rfl⟩ := of_readRegister_eq_ok hRead
      rw [bind_eq_of_ok (getPc_eq _)] at hJump
      rcases jump_link_error hJump with rfl | ⟨rfl, hDisabled⟩
      · exact .inl hUnmoved
      · rw [RegisterFile.isEnabled_touch] at hDisabled
        refine .inr ⟨hUnmoved.toAgrees.trans ?_, hDisabled, ?_⟩
        · exact ⟨fun _ => rfl, fun _ => rfl, rfl, rfl, rfl, rfl, rfl⟩
        · rw [linkTarget?, BitVec.sub_add_cancel]
    | _ => exact .inl (hStays rfl)

theorem agrees_of_execute_error {i : Instruction} {m m' : Machine} {f : Fault}
    (h : execute i m = .error f m') : Agrees m m' := by
  rcases execute_error_cases h with hUnmoved | ⟨hAgrees, -⟩
  · exact hUnmoved.toAgrees
  · exact hAgrees

/-- An instruction that fails changes no register value, no memory, no device and no listener's
queue. Its program counter differs only if it is a call that has jumped, and register 31, where the
link goes, is disabled. -/
theorem execute_error_agrees {i : Instruction} {m m' : Machine} {f : Fault}
    (h : execute i m = .error f m') :
    Agrees m m' ∧ (m'.pc = m.pc ∨
      m.registers.isEnabled RegIndex.returnAddress.toNat = false ∧
        linkTarget? m i = some (m'.pc + 4)) := by
  refine ⟨agrees_of_execute_error h, ?_⟩
  rcases execute_error_cases h with hUnmoved | ⟨-, hDisabled, hTarget⟩
  · exact .inl hUnmoved.pc
  · exact .inr ⟨hDisabled, hTarget⟩

/-- A call of address 8 with no register for the link. -/
theorem execute_error_agrees_call :
    ∃ m m' : Machine, m.registers.isEnabled RegIndex.returnAddress.toNat = false ∧
      execute (.jump .call 2) m = .error (.register ⟨31⟩) m' ∧ Agrees m m' ∧
      linkTarget? m (.jump .call 2) = some 8 ∧ m'.pc = 4 := by
  have hFails : execute (.jump .call 2) { new with registers := new.registers.disable 31 } =
      .error (.register ⟨31⟩) { new with registers := new.registers.disable 31, pc := 4 } := rfl
  obtain ⟨hAgrees, hStays | ⟨hDisabled, hTarget⟩⟩ := execute_error_agrees hFails
  · cases hStays
  · exact ⟨_, _, hDisabled, hFails, hAgrees, hTarget, rfl⟩

end NiosBoard.Machine
