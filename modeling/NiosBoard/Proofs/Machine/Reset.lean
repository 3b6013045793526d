import NiosBoard.Proofs.Machine.Loading
import NiosBoard.Proofs.Machine.Registers

/-! # Going back to a loaded program

A reset goes back to the state right after the last load, whatever happened since. What it keeps is
which registers are disabled, how the switches and buttons stand, which blocks were added, whether
writes are reported, and the listeners.
-/

namespace NiosBoard

namespace Block

variable {b : Block}

theorem eq_replicate_of_backing_reset {bytes : Array Byte} (h : b.reset.backing = .ram bytes) :
    bytes = Array.replicate bytes.size 0 := by
  obtain ⟨name, start, bytes | ⟨d, n⟩ | ⟨i, n⟩⟩ := b <;> cases h
  rw [Array.size_replicate]

theorem state_of_backing_reset {d : Leds} {n : Nat} (h : b.reset.backing = .device (.leds d) n) :
    d.state = 0 := by
  obtain ⟨name, start, bytes | ⟨d | d | d | d, n⟩ | ⟨i, n⟩⟩ := b <;> cases h
  rfl

end Block

namespace Memory

variable {m : Memory} {image : Array Byte}

theorem blanks_standard : standard.blanks = standard.blocks := by
  simp [blanks, standard, Block.reset, Device.reset]

/-- The blocks beyond those of the board, without what they hold. -/
def added (m : Memory) : List Block := m.blanks.drop standard.blocks.length

theorem blanks_eq_append_added (h : standard.blocks <+: m.blanks) :
    m.blanks = standard.blocks ++ m.added := by
  obtain ⟨added, hAdded⟩ := h
  rw [Memory.added, ← hAdded, List.drop_left]

theorem prefix_places_of_blanks (h : standard.blocks <+: m.blanks) :
    standard.places <+: m.places := by
  rw [places_eq_map_blanks m]
  exact h.map Block.place

/-- Program RAM with an image and zeros after it. -/
def programRam (image : Array Byte) : Block :=
  ⟨"ram".toList, Board.ramStart, .ram (image ++ Array.replicate (Board.ramSize - image.size) 0)⟩

theorem overlay_replicate (n : Nat) (image : Array Byte) :
    overlay (Array.replicate n 0) 0 image = image ++ Array.replicate (n - image.size) 0 := by
  simp [overlay, Array.extract_replicate]

theorem blocks_copyImage_reset (h : standard.blocks <+: m.blanks) (image : Array Byte) :
    (m.reset.copyImage Board.ramStart image).blocks =
      programRam image :: (standard.blocks.tail ++ m.added) := by
  have hBlanks : m.reset.blocks =
      ⟨"ram".toList, Board.ramStart, .ram (Array.replicate Board.ramSize 0)⟩ ::
        (standard.blocks.tail ++ m.added) := blanks_eq_append_added h
  rw [copyImage, hBlanks, updateFirst, if_pos]
  · simp only [Block.offset, BitVec.sub_self, BitVec.toNat_zero, overlay_replicate, programRam]
  · simp [Block.contains, Block.offset, Block.length, Board.ramSize]

theorem resetInputs_map_reset (p : Panel) (bs : List Block) :
    resetInputs p (bs.map Block.reset) = resetInputs p bs := by
  rw [resetInputs, List.foldl_map]
  congr
  funext p b
  obtain ⟨name, start, bytes | ⟨d, n⟩ | ⟨i, n⟩⟩ := b <;> rfl

theorem resetInputs_of_uart_eq_new {p : Panel} (h : p.uart = Uart.new) (bs : List Block) :
    resetInputs p bs = p := by
  obtain ⟨switches, buttons, uart⟩ := p
  subst h
  induction bs with
  | nil => rfl
  | cons b bs ih =>
    obtain ⟨name, start, bytes | ⟨d, n⟩ | ⟨_ | _ | _, n⟩⟩ := b <;> exact ih

/-- Of the inputs a reset clears the serial line only. -/
theorem panel_reset (h : standard.blocks <+: m.blanks) :
    m.reset.panel = { m.panel with uart := Uart.new } := by
  show resetInputs m.panel m.blocks = _
  rw [← resetInputs_map_reset]
  show resetInputs m.panel m.blanks = _
  rw [blanks_eq_append_added h, resetInputs, List.foldl_append]
  exact resetInputs_of_uart_eq_new rfl m.added

end Memory

namespace Machine

/-! ### Histories -/

/-- The operation does not replace what a reset goes back to. Loads do, but for those that fail
because their entry is no word address. -/
def Op.KeepsSnapshot : Op → Prop
  | .load _ entry => entry.toNat % 4 ≠ 0
  | _ => True

/-- Operations and runs, one after another, none of which loads a program. -/
inductive Continues (m : Machine) : Machine → Prop
  | refl : Continues m m
  | op {m' : Machine} (h : Continues m m') (o : Op) (hKeeps : o.KeepsSnapshot) :
      Continues m (m'.apply o)
  | run {m' : Machine} (h : Continues m m') (limit : Nat) :
      Continues m (left (m'.runWithLimit limit))

theorem loadAt_of_misaligned {entry : Word} (h : entry.toNat % 4 ≠ 0) (p : Program) (m : Machine) :
    loadAt p entry m = .error ⟨entry, .misalignedPc entry⟩ m := if_pos h

theorem snapshot_apply (m : Machine) {o : Op} (h : o.KeepsSnapshot) :
    (m.apply o).snapshot = m.snapshot := by
  rcases apply_cases m o with hSteady | ⟨p, entry, rfl⟩ | rfl | ⟨mo, rfl⟩
  · exact hSteady.snapshot
  · rw [apply, loadAt_of_misaligned h]
    rfl
  · exact snapshot_left_reset m
  · rfl

namespace Continues

variable {m m' : Machine}

theorem snapshot (h : Continues m m') : m'.snapshot = m.snapshot := by
  induction h with
  | refl => rfl
  | op _ o hKeeps ih => exact (snapshot_apply _ hKeeps).trans ih
  | run _ limit ih => exact (steady_steps.step.runWithLimit limit _ .refl).snapshot.trans ih

theorem trans {m'' : Machine} (h : Continues m m') (h' : Continues m' m'') : Continues m m'' := by
  induction h' with
  | refl => exact h
  | op _ o hKeeps ih => exact ih.op o hKeeps
  | run _ limit ih => exact ih.run limit

theorem prefix_blanks (h : Continues m m') : m.memory.blanks <+: m'.memory.blanks := by
  induction h with
  | refl => exact List.prefix_rfl
  | op _ o _ ih => exact ih.trans (prefix_blanks_apply _ o)
  | run _ limit ih => exact ih.trans ((steady_steps.step.runWithLimit limit _ .refl).blanks ▸ List.prefix_rfl)

end Continues

/-! ### What a reset leaves -/

/-- The program with its entry was the last one loaded. -/
def LoadedLast (p : Program) (entry : Word) (m : Machine) : Prop :=
  ∃ before after, Reachable before ∧ loadAt p entry before = .ok () after ∧ Continues after m

/-- `m'` is what a reset to the program makes of `m`. -/
structure Restored (p : Program) (entry : Word) (m m' : Machine) : Prop where
  pc : m'.pc = entry
  state : m'.state = .loaded
  steps : m'.steps = 0
  cell : ∀ i, m'.registers.cell i =
    if m.registers.isEnabled i then
      .enabled (if i = RegIndex.stackPointer.toNat then Board.stackTop else 0) .untouched
    else .disabled
  /-- Program RAM, the LEDs and the inputs, then the blocks that were added. -/
  blocks : m'.memory.blocks =
    Memory.programRam p.image :: (Memory.standard.blocks.tail ++ m.memory.added)
  otherRam : ∀ b ∈ m'.memory.blocks.tail, ∀ bytes, b.backing = .ram bytes →
    bytes = Array.replicate bytes.size 0
  leds : ∀ b ∈ m'.memory.blocks, ∀ d n, b.backing = .device (.leds d) n → d.state = 0
  panel : m'.memory.panel = ⟨m.memory.panel.switches, m.memory.panel.buttons, ⟨0, false, []⟩⟩
  notifyWrites : m'.memory.notifyWrites = m.memory.notifyWrites
  bus : m'.bus = m.bus
  snapshot : m'.snapshot = some ⟨p.image, p.start, entry⟩

/-- The machines agree on what a reset keeps of a history. -/
structure Alike (m n : Machine) : Prop where
  enabled : ∀ i, n.registers.isEnabled i = m.registers.isEnabled i
  switches : n.memory.panel.switches = m.memory.panel.switches
  buttons : n.memory.panel.buttons = m.memory.panel.buttons
  added : n.memory.added = m.memory.added

variable {p : Program} {entry : Word} {m m' n n' : Machine}

/-- No uniqueness is assumed: what a reset leaves determines the machine up to its listeners. -/
theorem Restored.eq_of_alike (h : Restored p entry m m') (h' : Restored p entry n n')
    (hAlike : Alike m n) :
    n' = { m' with
      bus := n.bus
      memory := { m'.memory with notifyWrites := n.memory.notifyWrites } } := by
  have hRegisters : n'.registers = m'.registers := by
    apply RegisterFile.ext_cell
    intro i
    rw [h'.cell, h.cell, hAlike.enabled]
  have hBlocks : n'.memory.blocks = m'.memory.blocks := by
    rw [h'.blocks, h.blocks, hAlike.added]
  have hPanel : n'.memory.panel = m'.memory.panel := by
    rw [h'.panel, h.panel, hAlike.switches, hAlike.buttons]
  obtain ⟨registers, pc, state, steps, bus, snapshot, ⟨blocks, panel, notify⟩⟩ := n'
  cases hRegisters
  cases hBlocks
  cases hPanel
  cases h'.pc.trans h.pc.symm
  cases h'.state.trans h.state.symm
  cases h'.steps.trans h.steps.symm
  cases h'.snapshot.trans h.snapshot.symm
  cases h'.bus
  cases h'.notifyWrites
  rfl

theorem restored_loaded (hBoard : Memory.standard.blocks <+: m.memory.blanks) (p : Program)
    (entry : Word) : Restored p entry m (m.loaded p entry) := by
  have hBlocks : (m.loaded p entry).memory.blocks =
      Memory.programRam p.image :: (Memory.standard.blocks.tail ++ m.memory.added) :=
    Memory.blocks_copyImage_reset hBoard p.image
  have hTail : ∀ b ∈ (m.loaded p entry).memory.blocks.tail, ∃ c : Block, c.reset = b := by
    intro b hb
    rw [hBlocks, List.tail_cons] at hb
    have hBlank : b ∈ m.memory.blanks := by
      rw [Memory.blanks_eq_append_added hBoard]
      exact List.mem_of_mem_tail hb
    obtain ⟨c, -, hc⟩ := List.mem_map.mp hBlank
    exact ⟨c, hc⟩
  refine ⟨rfl, rfl, rfl, ?_, hBlocks, ?_, ?_, Memory.panel_reset hBoard, rfl, rfl, rfl⟩
  · intro i
    exact RegisterFile.cell_initial m.registers i (by decide) Board.stackTop
  · intro b hb bytes hBytes
    obtain ⟨c, rfl⟩ := hTail b hb
    exact Block.eq_replicate_of_backing_reset hBytes
  · intro b hb d n hLeds
    rw [hBlocks] at hb
    rcases List.mem_cons.mp hb with rfl | hb
    · cases hLeds
    · obtain ⟨c, rfl⟩ := hTail b (hBlocks ▸ hb)
      exact Block.state_of_backing_reset hLeds

theorem alike_loaded (hBoard : Memory.standard.blocks <+: m.memory.blanks)
    (hFits : p.image.size ≤ Board.ramSize) (entry : Word) : Alike m (m.loaded p entry) := by
  have hRestored := restored_loaded hBoard p entry
  refine ⟨?_, ?_, ?_, ?_⟩
  · intro i
    rw [RegisterFile.isEnabled, RegisterFile.access?, hRestored.cell]
    cases m.registers.isEnabled i <;> rfl
  · rw [hRestored.panel]
  · rw [hRestored.panel]
  · have hMap : Memory.standard.places <+: m.memory.reset.places := by
      rw [Memory.places_reset]
      exact Memory.prefix_places_of_blanks hBoard
    have hBlanks : (m.loaded p entry).memory.blanks = m.memory.blanks :=
      (Memory.blanks_copyImage (Memory.checkImage_ramStart hMap hFits)).trans
        (Memory.blanks_reset m.memory)
    rw [Memory.added, hBlanks]
    rfl

theorem Reachable.board (h : Reachable m) : Memory.standard.blocks <+: m.memory.blanks :=
  Memory.blanks_standard ▸ h.prefix_blanks

theorem eq_loaded_of_loadAt_eq_ok (h : Reachable m) (hLoad : loadAt p entry m = .ok () m') :
    m' = m.loaded p entry := by
  have hEntry : entry.toNat % 4 = 0 := by
    by_contra hEntry
    rw [loadAt_of_misaligned hEntry] at hLoad
    cases hLoad
  rw [loadAt_eq_ok h (size_image_le_of_load h hLoad) hEntry] at hLoad
  cases hLoad
  rfl

namespace LoadedLast

theorem size_image_le (h : LoadedLast p entry m) : p.image.size ≤ Board.ramSize := by
  obtain ⟨before, after, hBefore, hLoad, -⟩ := h
  exact size_image_le_of_load hBefore hLoad

theorem board (h : LoadedLast p entry m) : Memory.standard.blocks <+: m.memory.blanks := by
  obtain ⟨before, after, hBefore, hLoad, hLater⟩ := h
  have hAfter : after.memory.blanks = before.memory.blanks := by
    have hLeft := blanks_left_loadAt p entry before
    rw [hLoad] at hLeft
    exact hLeft
  exact (hAfter ▸ hBefore.board).trans hLater.prefix_blanks

theorem snapshot (h : LoadedLast p entry m) : m.snapshot = some ⟨p.image, p.start, entry⟩ := by
  obtain ⟨before, after, hBefore, hLoad, hLater⟩ := h
  rw [hLater.snapshot, eq_loaded_of_loadAt_eq_ok hBefore hLoad]
  rfl

theorem reset_eq_ok (h : LoadedLast p entry m) : m.reset = .ok () (m.loaded p entry) :=
  Machine.reset_eq_ok (Memory.prefix_places_of_blanks h.board) h.snapshot h.size_image_le

theorem reset_of_alike (h : LoadedLast p entry m) (h' : LoadedLast p entry n)
    (hAlike : Alike m n) :
    n.reset = .ok () { m.loaded p entry with
      bus := n.bus
      memory := { (m.loaded p entry).memory with notifyWrites := n.memory.notifyWrites } } := by
  rw [h'.reset_eq_ok]
  exact congrArg _ ((restored_loaded h.board p entry).eq_of_alike
    (restored_loaded h'.board p entry) hAlike)

theorem continues (h : LoadedLast p entry m) (hLater : Continues m n) : LoadedLast p entry n := by
  obtain ⟨before, after, hBefore, hLoad, hSince⟩ := h
  exact ⟨before, after, hBefore, hLoad, hSince.trans hLater⟩

theorem after_reset (h : LoadedLast p entry m) : LoadedLast p entry (m.loaded p entry) := by
  have hApply : m.apply .reset = m.loaded p entry := by
    rw [apply, h.reset_eq_ok]
    rfl
  exact h.continues (hApply ▸ Continues.refl.op .reset trivial)

end LoadedLast

/-- After a load and any history without another load, a reset succeeds and leaves the state right
after the load. Of the history it depends on the disabled registers, the positions of switches and
buttons and the added blocks, and a second reset changes nothing. -/
theorem reset_restores_loaded {before after : Machine} (hBefore : Reachable before)
    (hLoad : loadAt p entry before = .ok () after) (hLater : Continues after m) :
    Restored p entry before after ∧
      ∃ m', m.reset = .ok () m' ∧ Restored p entry m m' ∧ m'.reset = .ok () m' ∧
        ∀ n, LoadedLast p entry n → Alike m n →
          n.reset = .ok () { m' with
            bus := n.bus
            memory := { m'.memory with notifyWrites := n.memory.notifyWrites } } := by
  have hLast : LoadedLast p entry m := ⟨before, after, hBefore, hLoad, hLater⟩
  refine ⟨?_, m.loaded p entry, hLast.reset_eq_ok, restored_loaded hLast.board p entry, ?_, ?_⟩
  · rw [eq_loaded_of_loadAt_eq_ok hBefore hLoad]
    exact restored_loaded hBefore.board p entry
  · exact hLast.reset_of_alike hLast.after_reset (alike_loaded hLast.board hLast.size_image_le entry)
  · intro n hn hAlike
    exact hLast.reset_of_alike hn hAlike

/-- A program that counts for ever. -/
def countSource : Text := "loop: addi r2, r2, 1\nbr loop\n".toList

theorem exists_assemble_countSource :
    ∃ p, assemble countSource = .ok p ∧ p.image.size ≤ Board.ramSize := by
  have hAccepted : (assemble countSource).toOption.map (fun p => p.image.size) = some 12 := by
    decide +kernel
  obtain ⟨p, hp, hSize⟩ := exists_ok_of_map_eq hAccepted
  refine ⟨p, hp, ?_⟩
  rw [hSize]
  decide

/-- A run, then the stack pointer taken away and a character on the serial line. -/
def disturbed (m : Machine) : Machine :=
  ((left (m.runWithLimit 100)).apply (.registers (.disable 27))).apply (.memory (.feedSerial 0x61))

theorem continues_disturbed (m : Machine) : Continues m (disturbed m) :=
  ((Continues.refl.run 100).op (.registers (.disable 27)) trivial).op (.memory (.feedSerial 0x61))
    trivial

theorem isEnabled_disturbed (m : Machine) : (disturbed m).registers.isEnabled 27 = false := by
  show ((left (m.runWithLimit 100)).registers.disable 27).isEnabled 27 = false
  simp [RegisterFile.isEnabled, RegisterFile.access?, RegisterFile.disable, Cell.access?]

theorem queue_disturbed (m : Machine) : (disturbed m).memory.panel.uart.queue ≠ [] :=
  List.append_ne_nil_of_right_ne_nil _ (List.cons_ne_nil _ _)

theorem reset_restores_loaded_countSource :
    ∃ p after m', assemble countSource = .ok p ∧ loadAt p 0 new = .ok () after ∧
      Continues after (disturbed after) ∧ (disturbed after).registers.isEnabled 27 = false ∧
      (disturbed after).memory.panel.uart.queue ≠ [] ∧ (disturbed after).reset = .ok () m' ∧
      m'.pc = 0 ∧ m'.registers.cell 27 = .disabled ∧ m'.memory.panel.uart = ⟨0, false, []⟩ ∧
      ((disturbed after).apply (.setPc 4)).reset = .ok () m' := by
  obtain ⟨p, hp, hFits⟩ := exists_assemble_countSource
  obtain ⟨after, hLoad⟩ : ∃ after, loadAt p 0 new = .ok () after :=
    ⟨_, loadAt_eq_ok .refl hFits rfl⟩
  have hLater := continues_disturbed after
  have hDisabled := isEnabled_disturbed after
  have hQueue := queue_disturbed after
  refine ⟨p, after, ?_⟩
  generalize disturbed after = m at hLater hDisabled hQueue ⊢
  obtain ⟨-, m', hReset, hRestored, -, hAlike⟩ := reset_restores_loaded .refl hLoad hLater
  have hMoved : m.apply (.setPc 4) = { m with pc := 4 } := rfl
  have hAgain : (m.apply (.setPc 4)).reset = .ok () m' := by
    rw [hAlike (m.apply (.setPc 4)) ⟨new, after, .refl, hLoad, hLater.op _ trivial⟩
      ⟨fun _ => rfl, rfl, rfl, rfl⟩, hMoved, ← hRestored.bus, ← hRestored.notifyWrites]
  have hStack : m'.registers.cell 27 = .disabled := by
    rw [hRestored.cell, hDisabled]
    rfl
  have hSerial : m'.memory.panel.uart = ⟨0, false, []⟩ := by
    rw [hRestored.panel]
  exact ⟨m', hp, hLoad, hLater, hDisabled, hQueue, hReset, hRestored.pc, hStack, hSerial,
    hAgain⟩

end Machine

end NiosBoard
