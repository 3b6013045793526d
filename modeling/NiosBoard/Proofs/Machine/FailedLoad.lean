import NiosBoard.Proofs.Assembly.Placement
import NiosBoard.Proofs.Machine.Reset

/-! # Loads that fail

A load fails if its entry is no word address, which shows before anything is touched, or if the
program does not fit into program RAM, which shows when its image is copied. By then registers and
memory are cleared, and what a reset goes back to is the program that does not fit.
-/

namespace NiosBoard

namespace Machine

variable {p : Program} {entry : Word} {m m' n : Machine} {e : MachineError}

def wiped (m : Machine) (p : Program) (entry : Word) : Machine :=
  { m with
    registers := m.registers.clear
    memory := m.memory.reset
    steps := 0
    snapshot := some ⟨p.image, p.start, entry⟩ }

theorem reset_of_large (hMap : Memory.standard.places <+: m.memory.places)
    (hSnapshot : m.snapshot = some ⟨p.image, p.start, entry⟩)
    (hLarge : Board.ramSize < p.image.size) :
    m.reset = .error ⟨entry, .memory ⟨p.start, .tooLarge⟩⟩ (m.wiped p entry) := by
  rw [← Memory.places_reset m.memory] at hMap
  obtain ⟨registers, pc, state, steps, bus, snapshot, memory⟩ := m
  cases hSnapshot
  rw [reset]
  simp only [Program.start, Memory.checkImage_ramStart_eq hMap, if_neg (Nat.not_le.mpr hLarge)]
  rfl

theorem loadAt_of_large (h : Reachable m) (hEntry : entry.toNat % 4 = 0)
    (hLarge : Board.ramSize < p.image.size) :
    loadAt p entry m = .error ⟨entry, .memory ⟨p.start, .tooLarge⟩⟩ (m.wiped p entry) := by
  rw [loadAt, if_neg (not_not_intro hEntry)]
  exact reset_of_large h.sound.map rfl hLarge

theorem of_loadAt_eq_error (h : Reachable m) (hFails : loadAt p entry m = .error e m') :
    (entry.toNat % 4 ≠ 0 ∧ e = ⟨entry, .misalignedPc entry⟩ ∧ m' = m) ∨
      (entry.toNat % 4 = 0 ∧ Board.ramSize < p.image.size ∧
        e = ⟨entry, .memory ⟨p.start, .tooLarge⟩⟩ ∧ m' = m.wiped p entry) := by
  by_cases hEntry : entry.toNat % 4 = 0
  · by_cases hFits : p.image.size ≤ Board.ramSize
    · rw [loadAt_eq_ok h hFits hEntry] at hFails
      cases hFails
    · rw [Nat.not_le] at hFits
      rw [loadAt_of_large h hEntry hFits] at hFails
      cases hFails
      exact .inr ⟨hEntry, hFits, rfl, rfl⟩
  · rw [loadAt_of_misaligned hEntry] at hFails
    cases hFails
    exact .inl ⟨hEntry, rfl, rfl⟩

/-! ### Resets after that -/

/-- No load since has got past its entry, and that of the program failed for its size. -/
def OversizeLast (p : Program) (entry : Word) (m : Machine) : Prop :=
  ∃ before, Reachable before ∧ entry.toNat % 4 = 0 ∧ Board.ramSize < p.image.size ∧
    Continues (before.wiped p entry) m

theorem OversizeLast.reset_eq_error (h : OversizeLast p entry m) :
    m.reset = .error ⟨entry, .memory ⟨p.start, .tooLarge⟩⟩ (m.wiped p entry) := by
  obtain ⟨before, hBefore, -, hLarge, hLater⟩ := h
  have hBoard : Memory.standard.blocks <+: m.memory.blanks := by
    refine List.IsPrefix.trans ?_ hLater.prefix_blanks
    show _ <+: before.memory.reset.blanks
    rw [Memory.blanks_reset]
    exact hBefore.board
  exact reset_of_large (Memory.prefix_places_of_blanks hBoard) hLater.snapshot hLarge

/-- `m'` is what a reset makes of `m` when no program was loaded. -/
structure Cleared (m m' : Machine) : Prop where
  pc : m'.pc = 0
  state : m'.state = .idle
  steps : m'.steps = 0
  cell : ∀ i, m'.registers.cell i =
    if m.registers.isEnabled i then .enabled 0 .untouched else .disabled
  blocks : m'.memory.blocks = Memory.standard.blocks ++ m.memory.added
  panel : m'.memory.panel = ⟨m.memory.panel.switches, m.memory.panel.buttons, ⟨0, false, []⟩⟩
  notifyWrites : m'.memory.notifyWrites = m.memory.notifyWrites
  bus : m'.bus = m.bus
  snapshot : m'.snapshot = none

theorem exists_reset_cleared (h : Continues new m) :
    ∃ m', m.reset = .ok () m' ∧ Cleared m m' := by
  have hBoard : Memory.standard.blocks <+: m.memory.blanks :=
    (Reachable.board .refl).trans h.prefix_blanks
  have hSnapshot : m.snapshot = none := h.snapshot
  refine ⟨{ m with
    registers := m.registers.clear
    memory := m.memory.reset
    steps := 0
    pc := 0
    state := .idle }, ?_, rfl, rfl, rfl, ?_, Memory.blanks_eq_append_added hBoard,
    Memory.panel_reset hBoard, rfl, rfl, hSnapshot⟩
  · rw [reset]
    simp only [hSnapshot]
  · intro i
    rw [RegisterFile.cell_clear, RegisterFile.isEnabled, RegisterFile.access?]
    cases m.registers.cell i <;> rfl

/-- Every machine goes back to nothing, to a program it has loaded, or to one that does not fit. -/
theorem Reachable.origin (h : Reachable m) :
    Continues new m ∨ (∃ p entry, LoadedLast p entry m) ∨ ∃ p entry, OversizeLast p entry m := by
  induction h with
  | refl => exact .inl .refl
  | @op m' h o ih =>
    by_cases hKeeps : o.KeepsSnapshot
    · rcases ih with hNew | ⟨p, entry, before, after, hBefore, hLoad, hLater⟩ |
        ⟨p, entry, before, hBefore, hEntry, hLarge, hLater⟩
      · exact .inl (hNew.op o hKeeps)
      · exact .inr (.inl ⟨p, entry, before, after, hBefore, hLoad, hLater.op o hKeeps⟩)
      · exact .inr (.inr ⟨p, entry, before, hBefore, hEntry, hLarge, hLater.op o hKeeps⟩)
    · cases o with
      | load p entry =>
        have hEntry : entry.toNat % 4 = 0 := Decidable.not_not.mp hKeeps
        by_cases hFits : p.image.size ≤ Board.ramSize
        · have hLoad := loadAt_eq_ok h hFits hEntry
          refine .inr (.inl ⟨p, entry, m', _, h, hLoad, ?_⟩)
          rw [apply, hLoad]
          exact .refl
        · rw [Nat.not_le] at hFits
          refine .inr (.inr ⟨p, entry, m', h, hEntry, hFits, ?_⟩)
          rw [apply, loadAt_of_large h hEntry hFits]
          exact .refl
      | _ => exact absurd trivial hKeeps

end Machine

/-! ### A program that does not fit -/

def skipping (length : Nat) : Draft := { Draft.new with data := #[⟨[], .skip length 0, 1⟩] }

theorem exists_link_skipping {length : Nat} (h : 4 + length < 2 ^ 32) :
    ∃ p, (skipping length).link = .ok p ∧ p.image.size = 4 + length := by
  have hLayout : Draft.layout (skipping length).dataStart (skipping length).symbols
      (skipping length).data.toList = .ok (Table.empty, 4 + BitVec.ofNat 32 length) := by
    refine Draft.layout_singleton ?_
    show 4 + (BitVec.ofNat 32 length).toNat < 2 ^ 32
    rw [BitVec.toNat_ofNat]
    omega
  let symbols :=
    Draft.place (skipping length).waiting (4 + BitVec.ofNat 32 length) Table.empty
  have hImage : (skipping length).data.foldlM (Draft.emitVariable symbols.get?)
      (Draft.codeImage []).toArray =
        .ok ((Draft.codeImage []).toArray ++ List.replicate length (0 : Byte)) := by
    rw [← Array.foldlM_toList]
    rfl
  refine ⟨_, bind_eq_ok_iff.mpr ⟨_, hLayout, bind_eq_ok_iff.mpr ⟨[], rfl,
    bind_eq_ok_iff.mpr ⟨_, hImage, rfl⟩⟩⟩, ?_⟩
  simp [Draft.codeImage]

theorem ofSource_megabytesSource_one :
    Draft.ofSource (megabytesSource 1) = .ok (skipping 0x100000) := by
  rw [Draft.ofSource, lines_megabytes]
  refine bind_eq_ok_iff.mpr ⟨skipping 0x100000, ?_, rfl⟩
  rw [List.replicate_succ, Draft.readLines, readLine_megabyte rfl rfl]
  rfl

theorem exists_assemble_large :
    ∃ p, assemble (megabytesSource 1) = .ok p ∧ Board.ramSize < p.image.size := by
  obtain ⟨p, hLink, hSize⟩ := exists_link_skipping (show 4 + 0x100000 < 2 ^ 32 by decide)
  refine ⟨p, bind_eq_ok_iff.mpr ⟨_, ofSource_megabytesSource_one, hLink⟩, ?_⟩
  rw [hSize]
  decide

namespace Machine

/-- A load that fails for its entry changes nothing: a reset, then or after any history without
another load, goes back to the program loaded last, or to nothing if there was none. One that fails
for the size of the program clears registers, memory and the step count, and no reset succeeds until
another load does. -/
theorem failed_load_leaves (h : Reachable m) (hFails : loadAt p entry m = .error e m') :
    (entry.toNat % 4 ≠ 0 ∧ e = ⟨entry, .misalignedPc entry⟩ ∧ m' = m ∧
      ∀ n, Continues m' n →
        (∃ p₀ entry₀ n', LoadedLast p₀ entry₀ m ∧ n.reset = .ok () n' ∧ Restored p₀ entry₀ n n') ∨
        (∃ n', Continues new m ∧ n.reset = .ok () n' ∧ Cleared n n') ∨
        ∃ p₀ entry₀, OversizeLast p₀ entry₀ m) ∨
    (entry.toNat % 4 = 0 ∧ Board.ramSize < p.image.size ∧
      e = ⟨entry, .memory ⟨p.start, .tooLarge⟩⟩ ∧ m' = m.wiped p entry ∧
      ∀ n, Continues m' n → n.reset = .error e (n.wiped p entry)) := by
  rcases of_loadAt_eq_error h hFails with ⟨hEntry, rfl, rfl⟩ | ⟨hEntry, hLarge, rfl, rfl⟩
  · refine .inl ⟨hEntry, rfl, rfl, ?_⟩
    intro n hLater
    rcases h.origin with hNew | ⟨p₀, entry₀, hLoaded⟩ | hLarge
    · obtain ⟨n', hReset, hCleared⟩ := exists_reset_cleared (hNew.trans hLater)
      exact .inr (.inl ⟨n', hNew, hReset, hCleared⟩)
    · have hLast := hLoaded.continues hLater
      exact .inl ⟨p₀, entry₀, _, hLoaded, hLast.reset_eq_ok, restored_loaded hLast.board p₀ entry₀⟩
    · exact .inr (.inr hLarge)
  · refine .inr ⟨hEntry, hLarge, rfl, rfl, ?_⟩
    intro n hLater
    exact OversizeLast.reset_eq_error ⟨m, h, hEntry, hLarge, hLater⟩

theorem failed_load_leaves_megabytesSource :
    ∃ p, assemble (megabytesSource 1) = .ok p ∧
      loadAt p 2 new = .error ⟨2, .misalignedPc 2⟩ new ∧ (∃ n', new.reset = .ok () n') ∧
      loadAt p 0 new = .error ⟨0, .memory ⟨p.start, .tooLarge⟩⟩ (new.wiped p 0) ∧
      (new.wiped p 0).reset =
        .error ⟨0, .memory ⟨p.start, .tooLarge⟩⟩ ((new.wiped p 0).wiped p 0) := by
  obtain ⟨p, hp, hLarge⟩ := exists_assemble_large
  have hEntry : (2 : Word).toNat % 4 ≠ 0 := by decide
  have hMisaligned := loadAt_of_misaligned hEntry p new
  have hFails : loadAt p 0 new = .error ⟨0, .memory ⟨p.start, .tooLarge⟩⟩ (new.wiped p 0) :=
    loadAt_of_large .refl rfl hLarge
  refine ⟨p, hp, hMisaligned, ?_, hFails, ?_⟩
  · rcases failed_load_leaves .refl hMisaligned with ⟨-, -, -, hResets⟩ | ⟨hAligned, -⟩
    · rcases hResets new .refl with ⟨_, _, n', -, hReset, -⟩ | ⟨n', -, hReset, -⟩ |
        ⟨_, _, before, -, -, -, hLater⟩
      · exact ⟨n', hReset⟩
      · exact ⟨n', hReset⟩
      · cases hLater.snapshot
    · exact absurd hAligned hEntry
  · rcases failed_load_leaves .refl hFails with ⟨hMisaligned, -⟩ | ⟨-, -, -, -, hResets⟩
    · exact absurd rfl hMisaligned
    · exact hResets _ .refl

/-- A load that fails clears a register that the program loaded before has set, and no reset goes
back to that program. -/
theorem failed_load_loses_program :
    ∃ q p m e m' m'', assemble countSource = .ok q ∧ assemble (megabytesSource 1) = .ok p ∧
      LoadedLast q 0 m ∧ m.registers.peek 2 = 7 ∧ loadAt p 0 m = .error e m' ∧
      m'.registers.peek 2 = 0 ∧ m'.reset = .error e m'' := by
  obtain ⟨q, hq, hFits⟩ := exists_assemble_countSource
  obtain ⟨p, hp, hLarge⟩ := exists_assemble_large
  have hEnabled : (new.loaded q 0).registers.isEnabled 2 = true := by
    rw [RegisterFile.isEnabled, RegisterFile.access?, (restored_loaded (Reachable.board .refl) q 0).cell]
    rfl
  obtain ⟨after, hLoad, hEnabled⟩ :
      ∃ after, loadAt q 0 new = .ok () after ∧ after.registers.isEnabled 2 = true :=
    ⟨_, loadAt_eq_ok .refl hFits rfl, hEnabled⟩
  let m := after.apply (.registers (.write 2 7))
  have hLast : LoadedLast q 0 m := ⟨new, after, .refl, hLoad, Continues.refl.op _ trivial⟩
  have hReachable : Reachable m :=
    HasLoaded.reachable ⟨new, after, 0, .refl, hLoad, Leads.refl.op _⟩
  have hWritten : m.registers.peek 2 = 7 := by
    show (((after.registers.write 2 7).toOption).getD after.registers).peek 2 = 7
    rw [RegisterFile.write, RegisterFile.check_of_isEnabled hEnabled]
    exact RegisterFile.peek_store hEnabled (by decide) (by decide) 7
  have hZero : (m.wiped p 0).registers.peek 2 = 0 := by
    show m.registers.clear.peek 2 = 0
    rw [RegisterFile.peek, RegisterFile.cell_clear]
    cases m.registers.cell 2 <;> rfl
  have hStuck : OversizeLast p 0 (m.wiped p 0) := ⟨m, hReachable, rfl, hLarge, .refl⟩
  exact ⟨q, p, m, _, _, _, hq, hp, hLast, hWritten, loadAt_of_large hReachable rfl hLarge, hZero,
    hStuck.reset_eq_error⟩

end Machine

end NiosBoard
