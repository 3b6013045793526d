import NiosBoard.Proofs.Machine.Loading

/-! # Where execution halts

The word of an instruction is zero for one statement only: a call whose target has the word index 0.
A machine halts there, at the zero word after the code, or in the data, and nowhere else in a program
that it left as it was loaded.
-/

namespace NiosBoard

open Text

/-- The statement calls one of the first bytes of a segment. -/
def InstructionLine.CallsZero (s : InstructionLine) (symbols : Symbols) : Prop :=
  (Opcode.jump .call).mnemonic.toList = lowercase s.name ∧
    ∃ x v, splitOperands s.operands = [x] ∧ Expression.evaluate symbols x = .ok v ∧
      v.toInt % 2 ^ 28 < 4

theorem index_eq_zero_iff {index : BitVec 26} {v : Value}
    (h : (index.toNat : Int) = v.toInt % 2 ^ 32 / 4 % 2 ^ 26) :
    index = 0 ↔ v.toInt % 2 ^ 28 < 4 := by
  have hZero : (0 : BitVec 26).toNat = 0 := rfl
  constructor
  · rintro rfl
    omega
  · intro hSmall
    refine BitVec.eq_of_toNat_eq ?_
    omega

namespace Program.Holds

variable {p : Program} {i : Nat} {s : InstructionLine} {ins : Instruction}

theorem eq_call_zero_iff (h : p.Holds i s ins) :
    ins = .jump .call 0 ↔ s.CallsZero p.symbol? := by
  have hSpells := h.spells
  constructor
  · rintro rfl
    obtain ⟨x, v, index, hOperands, hv, hCall, hIndex⟩ := hSpells.exists_eq_jump
    cases hCall
    exact ⟨h.mnemonic, x, v, hOperands, hv, (index_eq_zero_iff hIndex).mp rfl⟩
  · rintro ⟨hName, x, v, hOperands, hv, hSmall⟩
    rw [Opcode.mnemonic_injective (h.mnemonic.trans hName.symm)] at hSpells
    obtain ⟨y, w, index, hSame, hw, hCall, hIndex⟩ := hSpells.exists_eq_jump
    rw [hOperands] at hSame
    cases hSame
    rw [hv] at hw
    cases hw
    rw [hCall, (index_eq_zero_iff hIndex).mpr hSmall]

theorem word_eq_zero_iff (h : p.Holds i s ins) : p.word (4 * i) = 0 ↔ s.CallsZero p.symbol? := by
  rw [h.word, Instruction.encode_eq_zero_iff, h.eq_call_zero_iff]

end Program.Holds

namespace Machine

variable {m m' : Machine}

/-! ### Steps that halt -/

theorem stepInstruction_ne_ok_false {ins : Instruction} : stepInstruction ins m ≠ .ok false m' := by
  unfold stepInstruction
  split <;> nofun

theorem of_stepWord_eq_ok {w : Word} {b : Bool} (h : stepWord w m = .ok b m') :
    (b = true ∧ m'.state = .running) ∨ (b = false ∧ m'.pc = m.pc ∧ m'.memory = m.memory) := by
  unfold stepWord at h
  split at h
  · cases h
    exact .inr ⟨rfl, rfl, rfl⟩
  split at h
  · cases h
  split at h
  · cases h
  · cases h
    exact .inl ⟨rfl, rfl⟩

theorem exists_stepWord_of_step_eq_ok {b : Bool} (hAwake : m.state ≠ .halted)
    (h : step m = .ok b m') :
    ∃ w m₁, loadMemory .word m.pc { m with registers := m.registers.resetAccess } = .ok w m₁ ∧
      stepWord w m₁ = .ok b m' := by
  rw [step, if_neg hAwake] at h
  change faultAt m.pc (EStateM.bind _ _ _) = _ at h
  rw [EStateM.bind] at h
  cases hLoad : loadMemory .word m.pc { m with registers := m.registers.resetAccess } with
  | error f m₁ =>
    rw [hLoad] at h
    cases h
  | ok w m₁ =>
    rw [hLoad] at h
    refine ⟨w, m₁, rfl, ?_⟩
    cases hResult : stepWord w m₁ with
    | error f m₂ =>
      simp only [hResult] at h
      cases h
    | ok b' m₂ =>
      simp only [hResult] at h
      cases h
      rfl

theorem of_loadMemory_eq_ok {width : Width} {address w : Word}
    (h : loadMemory width address m = .ok w m') :
    m' = { m with memory := (m.memory.fetchAll (Memory.accessed address width.bytes)).2 } := by
  rw [loadMemory] at h
  split at h <;> cases h
  rfl

/-- A step that finds an instruction goes on running; one that halts has only fetched. -/
theorem of_step_eq_ok {b : Bool} (hAwake : m.state ≠ .halted) (h : step m = .ok b m') :
    (b = true ∧ m'.state = .running) ∨
      (b = false ∧ m'.pc = m.pc ∧
        m'.memory = (m.memory.fetchAll (Memory.accessed m.pc Width.word.bytes)).2) := by
  obtain ⟨w, m₁, hLoad, hWord⟩ := exists_stepWord_of_step_eq_ok hAwake h
  obtain rfl := of_loadMemory_eq_ok hLoad
  exact of_stepWord_eq_ok hWord

/-! ### Runs that halt -/

inductive Halts (m m' : Machine) : Prop
  | run (h : run m = some (.ok () m'))
  | limited (limit : Nat) (h : runWithLimit limit m = .ok .halted m')

theorem exists_step_of_stepUpTo {n : Nat} (hAwake : m.state ≠ .halted)
    (h : stepUpTo n m = .ok .halted m') :
    ∃ m₁, Leads m m₁ ∧ m₁.state ≠ .halted ∧ step m₁ = .ok false m' := by
  induction n generalizing m with
  | zero => cases h
  | succ n ih =>
    rw [stepUpTo] at h
    simp only at h
    split at h
    · next m₁ hStep =>
      rcases of_step_eq_ok hAwake hStep with ⟨-, hRunning⟩ | ⟨hFalse, -⟩
      · have hAwake₁ : m₁.state ≠ .halted := by simp [hRunning]
        obtain ⟨m₂, hLeads, hAwake₂, hHalt⟩ := ih hAwake₁ h
        exact ⟨m₂, (Leads.step .refl hStep).trans hLeads, hAwake₂, hHalt⟩
      · cases hFalse
    · next m₁ hStep =>
      cases h
      exact ⟨m, .refl, hAwake, hStep⟩
    · cases h

theorem exists_step_of_run (hAwake : m.state ≠ .halted) (h : run m = some (.ok () m')) :
    ∃ m₁, Leads m m₁ ∧ m₁.state ≠ .halted ∧ step m₁ = .ok false m' := by
  refine run.partial_correctness (fun m r => m.state ≠ .halted → r = .ok () m' →
    ∃ m₁, Leads m m₁ ∧ m₁.state ≠ .halted ∧ step m₁ = .ok false m') ?_ m _ h hAwake rfl
  intro rec ih m r hRun hAwake hr
  split at hRun
  · next m₁ hStep =>
    rcases of_step_eq_ok hAwake hStep with ⟨-, hRunning⟩ | ⟨hFalse, -⟩
    · have hAwake₁ : m₁.state ≠ .halted := by simp [hRunning]
      obtain ⟨m₂, hLeads, hAwake₂, hHalt⟩ := ih m₁ r hRun hAwake₁ hr
      exact ⟨m₂, (Leads.step .refl hStep).trans hLeads, hAwake₂, hHalt⟩
    · cases hFalse
  · next m₁ hStep =>
    cases hRun
    cases hr
    exact ⟨m, .refl, hAwake, hStep⟩
  · cases hRun
    cases hr

theorem Halts.exists_step (hAwake : m.state ≠ .halted) (h : Halts m m') :
    ∃ m₁, Leads m m₁ ∧ m₁.state ≠ .halted ∧ step m₁ = .ok false m' := by
  cases h with
  | run hRun => exact exists_step_of_run hAwake hRun
  | limited limit hRun =>
    rw [runWithLimit, if_neg hAwake] at hRun
    exact exists_step_of_stepUpTo hAwake hRun

/-- What the next step does to a machine that is about to execute an instruction. -/
theorem AboutTo.exists_step {source : Text} {p : Program} {i : Nat} (h : AboutTo source p i m) :
    ∃ s ins, (instructionsOf (trace source))[i]? = some s ∧ p.Holds i s ins ∧
      (s.CallsZero p.symbol? → step m = .ok false m.halt) ∧
      (¬ s.CallsZero p.symbol? → step m = stepInstruction ins m ∧
        ∀ m', step m ≠ .ok false m') := by
  obtain ⟨s, ins, hs, hHolds⟩ := h.exists_holds
  refine ⟨s, ins, hs, hHolds, ?_, ?_⟩
  · intro hCall
    exact h.step_eq_halt (hHolds.word_eq_zero_iff.mpr hCall)
  · intro hCall
    have hStep := h.step_eq_stepInstruction hHolds.word (mt hHolds.eq_call_zero_iff.mp hCall)
    refine ⟨hStep, fun m' => ?_⟩
    rw [hStep]
    exact stepInstruction_ne_ok_false

/-- The machine before the last step of a run that halts in the code was about to execute the
instruction there. -/
theorem Halts.exists_aboutTo {source : Text} {p : Program} (h : Halts m m')
    (hp : assemble source = .ok p) (hLoaded : HasLoaded p m) (hAwake : m.state ≠ .halted)
    (hCode : m'.pc.toNat < p.start.toNat + 4 * p.length)
    (hIntact : m'.memory.peek .word m'.pc = .ok (p.word m'.pc.toNat)) :
    ∃ m₁, AboutTo source p (m'.pc.toNat / 4) m₁ ∧ m₁.pc = m'.pc ∧ step m₁ = .ok false m' := by
  obtain ⟨m₁, hLeads, hAwake₁, hStep⟩ := h.exists_step hAwake
  have hLoaded₁ := hLoaded.leads hLeads
  rcases of_step_eq_ok hAwake₁ hStep with ⟨hTrue, -⟩ | ⟨-, hPc, hMemory⟩
  · cases hTrue
  -- a fetch from RAM leaves no trace, so the word is intact before the last step too
  have hRam : m₁.pc.toNat + Width.word.bytes ≤ Board.ramSize := by
    have hStart : p.start.toNat = 0 := rfl
    have hWidth : Width.word.bytes = 4 := rfl
    have hImage := hLoaded.size_image_le
    have hFits := size_image_of_assemble hp
    rw [hPc] at hCode
    omega
  obtain ⟨vs, -, hFetch⟩ := Memory.fetchAll_of_isRam
    (Memory.isRam_of_mem_accessed hLoaded₁.reachable.sound.map hRam)
  rw [hMemory, hFetch, hPc] at hIntact
  rw [hPc] at hCode ⊢
  exact ⟨m₁, hLoaded₁.aboutTo hp hAwake₁ hCode hIntact, rfl, hStep⟩

end Machine

/-- The word of an instruction is zero exactly for a call whose target is in the first word of a
segment. With the program counter at an instruction that is still as it was loaded, a machine halts
at such a call and executes every other instruction; so a run that halts in the code does so at such
a call. -/
theorem halts_in_code_iff_callsZero {source : Text} {p : Program} (hp : assemble source = .ok p) :
    (∀ i, i < p.length → ∃ s, (instructionsOf (trace source))[i]? = some s ∧
      (p.word (4 * i) = 0 ↔ s.CallsZero p.symbol?)) ∧
    (∀ m : Machine, m.HasLoaded p → m.state ≠ .halted →
      m.pc.toNat < p.start.toNat + 4 * p.length →
      m.memory.peek .word m.pc = .ok (p.word m.pc.toNat) →
      ∃ i s ins, m.pc.toNat = p.start.toNat + 4 * i ∧
        (instructionsOf (trace source))[i]? = some s ∧ p.Holds i s ins ∧
        (s.CallsZero p.symbol? → m.step = .ok false m.halt) ∧
        (¬ s.CallsZero p.symbol? → m.step = m.stepInstruction ins ∧
          ∀ m', m.step ≠ .ok false m')) ∧
    (∀ m m' : Machine, m.HasLoaded p → m.state ≠ .halted → m.Halts m' →
      m'.pc.toNat < p.start.toNat + 4 * p.length →
      m'.memory.peek .word m'.pc = .ok (p.word m'.pc.toNat) →
      ∃ i s, m'.pc.toNat = p.start.toNat + 4 * i ∧
        (instructionsOf (trace source))[i]? = some s ∧ s.CallsZero p.symbol?) := by
  refine ⟨fun i hi => ?_, fun m hLoaded hAwake hCode hIntact => ?_,
    fun m m' hLoaded hAwake hHalts hCode hIntact => ?_⟩
  · rw [← length_of_assemble hp] at hi
    have hs := List.getElem?_eq_getElem hi
    obtain ⟨ins, hHolds⟩ := exists_holds_of_assemble hp hs
    exact ⟨_, hs, hHolds.word_eq_zero_iff⟩
  · have hAbout := hLoaded.aboutTo hp hAwake hCode hIntact
    obtain ⟨s, ins, hStep⟩ := hAbout.exists_step
    exact ⟨_, s, ins, hAbout.toNat_pc.trans (Nat.zero_add _).symm, hStep⟩
  · obtain ⟨m₁, hAbout, hPc, hStep⟩ := hHalts.exists_aboutTo hp hLoaded hAwake hCode hIntact
    obtain ⟨s, ins, hs, -, -, hRuns⟩ := hAbout.exists_step
    have hNat := hAbout.toNat_pc
    rw [hPc] at hNat
    refine ⟨_, s, hNat.trans (Nat.zero_add _).symm, hs, ?_⟩
    by_contra hCall
    exact (hRuns hCall).2 m' hStep

def recursiveSource : Text := "start: nextpc r2\n call start\n".toList

theorem halts_in_code_iff_callsZero_recursiveSource :
    ∃ p, assemble recursiveSource = .ok p ∧ p.word 0 ≠ 0 ∧ p.word 4 = 0 ∧
      (∀ m', (Machine.new.loaded p 0).step ≠ .ok false m') ∧
      (Machine.new.loaded p 4).step = .ok false (Machine.new.loaded p 4).halt := by
  have hAccepted : (assemble recursiveSource).toOption.map (fun p =>
      (p.length, p.image.size, (Expression.evaluate p.symbol? "start".toList).toOption)) =
        some (2, 12, some 0) := by decide +kernel
  obtain ⟨p, hp, hFacts⟩ := exists_ok_of_map_eq hAccepted
  simp only [Prod.mk.injEq] at hFacts
  obtain ⟨hLength, hSize, hStart⟩ := hFacts
  have hLines : (instructionsOf (trace recursiveSource)).map (fun s =>
      (lowercase s.name, splitOperands s.operands)) =
        [((Opcode.reg .nextpc).mnemonic.toList, ["r2".toList]),
          ((Opcode.jump .call).mnemonic.toList, ["start".toList])] := by decide +kernel
  obtain ⟨s₀, lines, hLines₀, hNextpc, hLines⟩ := List.map_eq_cons_iff.mp hLines
  obtain ⟨s₁, lines, rfl, hCall, -⟩ := List.map_eq_cons_iff.mp hLines
  rw [Prod.mk.injEq] at hNextpc hCall
  have hOther : ¬ s₀.CallsZero p.symbol? := by
    rintro ⟨hName, -⟩
    rw [hNextpc.1] at hName
    exact absurd hName (by decide +kernel)
  have hZero : s₁.CallsZero p.symbol? :=
    ⟨hCall.1.symm, _, _, hCall.2, toOption_eq_some_iff.mp hStart, by decide⟩
  have hFits : p.image.size ≤ Board.ramSize := by
    rw [hSize]
    decide
  have h₀ : Machine.AboutTo recursiveSource p 0 (Machine.new.loaded p 0) :=
    Machine.aboutTo_loaded .refl hp hFits (by omega)
  have h₁ : Machine.AboutTo recursiveSource p 1 (Machine.new.loaded p 4) :=
    Machine.aboutTo_loaded .refl hp hFits (by omega)
  obtain ⟨hWords, hSteps, -⟩ := halts_in_code_iff_callsZero hp
  obtain ⟨s, hs, hWord₀⟩ := hWords 0 (by omega)
  obtain ⟨s', hs', hWord₁⟩ := hWords 1 (by omega)
  rw [hLines₀] at hs hs'
  cases hs
  cases hs'
  have hPc₀ : p.start.toNat + 4 * 0 = (Machine.new.loaded p 0).pc.toNat := rfl
  have hPc₁ : p.start.toNat + 4 * 1 = (Machine.new.loaded p 4).pc.toNat := rfl
  obtain ⟨i, r, ins, hi, hr, -, -, hRuns⟩ :=
    hSteps _ h₀.loaded h₀.awake (by omega) h₀.intact
  obtain ⟨j, r', ins', hj, hr', -, hHalts, -⟩ :=
    hSteps _ h₁.loaded h₁.awake (by omega) h₁.intact
  obtain rfl : i = 0 := by omega
  obtain rfl : j = 1 := by omega
  rw [hLines₀] at hr hr'
  cases hr
  cases hr'
  exact ⟨p, hp, mt hWord₀.mp hOther, hWord₁.mpr hZero, (hRuns hOther).2, hHalts hZero⟩

theorem word_of_call_zero :
    ∃ p, assemble "call 0\n".toList = .ok p ∧ p.length = 1 ∧ p.word 0 = 0 ∧
      (Machine.new.loaded p 0).step = .ok false (Machine.new.loaded p 0).halt := by
  have hAccepted : (assemble "call 0\n".toList).toOption.map (fun p =>
      (p.length, p.image.size, p.word 0)) = some (1, 8, 0) := by decide +kernel
  obtain ⟨p, hp, hFacts⟩ := exists_ok_of_map_eq hAccepted
  simp only [Prod.mk.injEq] at hFacts
  obtain ⟨hLength, hSize, hWord⟩ := hFacts
  have hFits : p.image.size ≤ Board.ramSize := by
    rw [hSize]
    decide
  have hAbout : Machine.AboutTo "call 0\n".toList p 0 (Machine.new.loaded p 0) :=
    Machine.aboutTo_loaded .refl hp hFits (by omega)
  exact ⟨p, hp, hLength, hWord, hAbout.step_eq_halt hWord⟩

end NiosBoard
