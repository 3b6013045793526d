import NiosBoard.Proofs.Assembly.Image
import NiosBoard.Proofs.Machine.Session

/-! # Steps through a loaded program

A machine that is about to execute an instruction of a program it has loaded fetches the word that
the assembler made of it, from RAM and so without side effects.
-/

namespace NiosBoard

namespace Memory

theorem find?_places_of_lt_ramSize {m : Memory} (h : standard.places <+: m.places) {a : Word}
    (ha : a.toNat < Board.ramSize) :
    m.places.find? (·.contains a) = some ⟨Board.ramStart, Board.ramSize, true⟩ := by
  obtain ⟨added, hAdded⟩ := h
  have hFirst : standard.places = ⟨Board.ramStart, Board.ramSize, true⟩ :: standard.places.tail := by
    simp [places, standard, Block.place, Block.length, Block.isDevice]
  rw [← hAdded, hFirst, List.cons_append, List.find?_cons_of_pos]
  simpa [Place.contains, Board.ramStart] using ha

theorem isRam_of_lt_ramSize {m : Memory} (h : standard.places <+: m.places) {a : Word}
    (ha : a.toNat < Board.ramSize) : m.IsRam a :=
  ⟨_, find?_places_of_lt_ramSize h ha, rfl⟩

theorem isRam_of_mem_accessed {m : Memory} (h : standard.places <+: m.places) {width : Width}
    {address : Word} (hFits : address.toNat + width.bytes ≤ Board.ramSize) :
    ∀ a ∈ accessed address width.bytes, m.IsRam a := by
  intro a ha
  obtain ⟨i, hi, rfl⟩ := List.mem_map.mp ha
  rw [List.mem_range] at hi
  refine isRam_of_lt_ramSize h ?_
  have hSize : Board.ramSize = 1048576 := rfl
  rw [BitVec.toNat_add, BitVec.toNat_ofNat]
  omega

theorem peekByte_standard {a : Word} (ha : a.toNat < Board.ramSize) :
    standard.peekByte a = .ok 0 := by
  have hBlock : standard.block? a =
      some ⟨"ram".toList, Board.ramStart, .ram (Array.replicate Board.ramSize 0)⟩ := by
    rw [block?, standard, List.find?_cons_of_pos]
    simpa [Block.contains, Block.offset, Block.length, Board.ramStart] using ha
  rw [peekByte, hBlock]
  simp only [Block.peek, Array.getD_eq_getD_getElem?, Array.getElem?_replicate]
  split <;> rfl

theorem peek_standard : standard.peek .word 0 = .ok 0 := by
  have hBytes : (accessed 0 Width.word.bytes).mapM standard.peekByte = .ok [0, 0, 0, 0] := by
    show [(0 : Word), 1, 2, 3].mapM standard.peekByte = _
    simp only [List.mapM_cons, List.mapM_nil]
    rw [peekByte_standard (by decide), peekByte_standard (by decide), peekByte_standard (by decide),
      peekByte_standard (by decide)]
    rfl
  rw [peek, hBytes]
  rfl

end Memory

namespace Machine

variable {m : Machine}

theorem loadMemory_of_peek {width : Width} {address w : Word}
    (hRam : ∀ a ∈ Memory.accessed address width.bytes, m.memory.IsRam a)
    (hPeek : m.memory.peek width address = .ok w) : loadMemory width address m = .ok w m := by
  obtain ⟨vs, hPeeks, hFetch⟩ := Memory.fetchAll_of_isRam hRam
  rw [Memory.peek, hPeeks] at hPeek
  cases hPeek
  simp only [loadMemory, Memory.checkMapped_of_isRam hRam, hFetch]

/-- What a step does after its instruction. -/
def advance (m : Machine) : Machine :=
  { m with pc := m.pc + 4, steps := m.steps + 1, state := .running }.publish (.pc (m.pc + 4))

def stepInstruction (ins : Instruction) : Exec MachineError Bool := fun m =>
  match execute ins { m with registers := m.registers.resetAccess } with
  | .ok () m' => .ok true m'.advance
  | .error f m' => .error ⟨m.pc, f⟩ { m' with pc := m.pc }

/-- What a step leaves that finds the zero word. -/
def halt (m : Machine) : Machine :=
  { m with registers := m.registers.resetAccess, state := .halted }.publish (.halted m.steps)

theorem step_of_peek {w : Word} (hAwake : m.state ≠ .halted)
    (hRam : ∀ a ∈ Memory.accessed m.pc Width.word.bytes, m.memory.IsRam a)
    (hPeek : m.memory.peek .word m.pc = .ok w) :
    step m = faultAt m.pc (stepWord w { m with registers := m.registers.resetAccess }) := by
  have hLoad : loadMemory .word m.pc { m with registers := m.registers.resetAccess } =
      .ok w { m with registers := m.registers.resetAccess } := loadMemory_of_peek hRam hPeek
  rw [step, if_neg hAwake]
  show faultAt m.pc (EStateM.bind _ _ _) = _
  rw [EStateM.bind, hLoad]

/-- Before anything is loaded, a machine halts at the first address. -/
theorem step_standard (hAwake : m.state ≠ .halted) (hPc : m.pc = 0)
    (hMemory : m.memory = Memory.standard) : step m = .ok false m.halt := by
  have hPeek : m.memory.peek .word m.pc = .ok 0 := by
    rw [hMemory, hPc]
    exact Memory.peek_standard
  have hRam : ∀ a ∈ Memory.accessed m.pc Width.word.bytes, m.memory.IsRam a := by
    rw [hMemory, hPc]
    exact Memory.isRam_of_mem_accessed List.prefix_rfl (by decide)
  rw [step_of_peek hAwake hRam hPeek]
  rfl

theorem size_image_le_of_load {m' : Machine} {p : Program} {entry : Word} (h : Reachable m)
    (hLoad : loadAt p entry m = .ok () m') : p.image.size ≤ Board.ramSize := by
  unfold loadAt at hLoad
  split at hLoad
  · cases hLoad
  unfold reset at hLoad
  simp only at hLoad
  split at hLoad
  · cases hLoad
  next hImage =>
  obtain ⟨place, hFind, -, hFits⟩ := Memory.exists_block_of_checkImage hImage
  have hStart : p.start.toNat < Board.ramSize := (by decide : Board.ramStart.toNat < Board.ramSize)
  rw [Memory.places_reset, Memory.find?_places_of_lt_ramSize h.sound.map hStart] at hFind
  cases hFind
  exact Nat.le_trans (Nat.le_add_left ..) hFits

def HasLoaded (p : Program) (m : Machine) : Prop :=
  ∃ before after entry, Reachable before ∧ loadAt p entry before = .ok () after ∧ Leads after m

namespace HasLoaded

variable {p : Program}

theorem leads {m' : Machine} (h : HasLoaded p m) (hLeads : Leads m m') : HasLoaded p m' := by
  obtain ⟨before, after, entry, hBefore, hLoad, hAfter⟩ := h
  exact ⟨before, after, entry, hBefore, hLoad, hAfter.trans hLeads⟩

theorem reachable (h : HasLoaded p m) : Reachable m := by
  obtain ⟨before, after, entry, hBefore, hLoad, hLeads⟩ := h
  have hAfter : after = before.apply (.load p entry) := by
    rw [apply, hLoad]
    rfl
  exact (hAfter ▸ hBefore.op _ : Reachable after).trans hLeads

theorem size_image_le (h : HasLoaded p m) : p.image.size ≤ Board.ramSize := by
  obtain ⟨before, after, entry, hBefore, hLoad, -⟩ := h
  exact size_image_le_of_load hBefore hLoad

end HasLoaded

/-- The machine has loaded the program and is about to execute its instruction number `i`, which is
still as it was loaded. -/
structure AboutTo (source : Text) (p : Program) (i : Nat) (m : Machine) : Prop where
  assembled : assemble source = .ok p
  loaded : HasLoaded p m
  awake : m.state ≠ .halted
  lt : i < p.length
  pc : m.pc = p.start + BitVec.ofNat 32 (4 * i)
  intact : m.memory.peek .word m.pc = .ok (p.word (4 * i))

/-- The program counter of a machine in the code stands at an instruction. -/
theorem HasLoaded.aboutTo {source : Text} {p : Program} (h : HasLoaded p m)
    (hp : assemble source = .ok p) (hAwake : m.state ≠ .halted)
    (hCode : m.pc.toNat < p.start.toNat + 4 * p.length)
    (hIntact : m.memory.peek .word m.pc = .ok (p.word m.pc.toNat)) :
    AboutTo source p (m.pc.toNat / 4) m := by
  have hAligned := h.reachable.sound.aligned
  have hStart : p.start.toNat = 0 := rfl
  have hQuarter : 4 * (m.pc.toNat / 4) = m.pc.toNat := by omega
  refine ⟨hp, h, hAwake, by omega, ?_, ?_⟩
  · rw [hQuarter, BitVec.ofNat_toNat, BitVec.setWidth_eq]
    exact (BitVec.zero_add m.pc).symm
  · rw [hQuarter]
    exact hIntact

namespace AboutTo

variable {source : Text} {p : Program} {i : Nat}

theorem add_four_le_ramSize (h : AboutTo source p i m) : 4 * i + 4 ≤ Board.ramSize := by
  have hImage := h.loaded.size_image_le
  have hCode := size_image_of_assemble h.assembled
  have hLt := h.lt
  omega

theorem toNat_pc (h : AboutTo source p i m) : m.pc.toNat = 4 * i := by
  have hFits := h.add_four_le_ramSize
  have hSize : Board.ramSize = 1048576 := rfl
  rw [h.pc]
  show (Draft.codeAddress i).toNat = 4 * i
  rw [Draft.codeAddress_eq, BitVec.toNat_ofNat]
  omega

/-- The word that was written for the instruction is the one that is executed. -/
theorem step_eq (h : AboutTo source p i m) :
    step m =
      faultAt m.pc (stepWord (p.word (4 * i)) { m with registers := m.registers.resetAccess }) := by
  refine step_of_peek h.awake ?_ h.intact
  refine Memory.isRam_of_mem_accessed h.loaded.reachable.sound.map ?_
  rw [h.toNat_pc]
  exact h.add_four_le_ramSize

theorem exists_holds (h : AboutTo source p i m) :
    ∃ s ins, (instructionsOf (trace source))[i]? = some s ∧ p.Holds i s ins := by
  have hLt := h.lt
  rw [← length_of_assemble h.assembled] at hLt
  have hs := List.getElem?_eq_getElem hLt
  obtain ⟨ins, hHolds⟩ := exists_holds_of_assemble h.assembled hs
  exact ⟨_, ins, hs, hHolds⟩

theorem step_eq_stepInstruction {ins : Instruction} (h : AboutTo source p i m)
    (hWord : p.word (4 * i) = ins.encode) (hNonzero : ins ≠ .jump .call 0) :
    step m = stepInstruction ins m := by
  have hNe : ins.encode ≠ 0 := fun hZero => hNonzero (ins.encode_eq_zero_iff.mp hZero)
  rw [h.step_eq, hWord, stepWord, if_neg hNe, Instruction.decode_encode, stepInstruction]
  simp only
  split
  · next hExecute =>
    rw [hExecute]
    rfl
  · next hExecute =>
    rw [hExecute]
    rfl

theorem step_eq_halt (h : AboutTo source p i m) (hZero : p.word (4 * i) = 0) :
    step m = .ok false m.halt := by
  rw [h.step_eq, hZero]
  rfl

end AboutTo

end Machine

end NiosBoard
