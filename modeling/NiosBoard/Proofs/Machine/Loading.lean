import NiosBoard.Proofs.Machine.Fetch
import NiosBoard.Proofs.Machine.Registers

/-! # Loading a program

A program that fits into program RAM can be loaded into every machine. After that its image is in
memory, so each of its instructions can be the next one.
-/

namespace NiosBoard

namespace Memory

theorem getD_overlay {bytes image : Array Byte} {offset k : Nat}
    (hFits : offset + image.size ≤ bytes.size) (hk : k < image.size) :
    (overlay bytes offset image).getD (offset + k) 0 = image[k] := by
  have hBefore : (bytes.extract 0 offset).size = offset := by
    rw [Array.size_extract]
    omega
  rw [Array.getD_eq_getD_getElem?, overlay, Array.getElem?_append_left, Array.getElem?_append_right]
  · rw [hBefore, Nat.add_sub_cancel_left, Array.getElem?_eq_getElem hk]
    rfl
  · omega
  · rw [Array.size_append, hBefore]
    omega

variable {m : Memory}

theorem exists_blocks_eq (h : standard.places <+: m.places) :
    ∃ name bytes rest, m.blocks = ⟨name, Board.ramStart, .ram bytes⟩ :: rest ∧
      bytes.size = Board.ramSize := by
  obtain ⟨added, hAdded⟩ := h
  cases hBlocks : m.blocks with
  | nil => simp [places, hBlocks, standard] at hAdded
  | cons b rest =>
    rw [places, places, hBlocks, List.map_cons, standard, List.map_cons, List.cons_append,
      List.cons.injEq] at hAdded
    obtain ⟨hPlace, -⟩ := hAdded
    obtain ⟨bytes, hBytes⟩ := b.exists_bytes_of_isRam (congrArg Place.isRam hPlace).symm
    obtain ⟨name, start, backing⟩ := b
    cases hBytes
    cases congrArg Place.start hPlace
    have hSize := congrArg Place.length hPlace
    simp only [Block.place, Block.length, Array.size_replicate] at hSize
    exact ⟨name, bytes, rest, rfl, hSize.symm⟩

theorem checkImage_ramStart_eq (h : standard.places <+: m.places) (size : Nat) :
    m.checkImage Board.ramStart size =
      if size ≤ Board.ramSize then .ok () else .error ⟨Board.ramStart, .tooLarge⟩ := by
  obtain ⟨name, bytes, rest, hBlocks, hSize⟩ := exists_blocks_eq h
  have hBlock : m.block? Board.ramStart = some ⟨name, Board.ramStart, .ram bytes⟩ := by
    rw [block?, hBlocks, List.find?_cons_of_pos]
    simp [Block.contains, Block.offset, Block.length, hSize, Board.ramSize]
  simp only [checkImage, hBlock, Block.offset, BitVec.sub_self, BitVec.toNat_zero, Nat.zero_add,
    hSize]

theorem checkImage_ramStart (h : standard.places <+: m.places) {size : Nat}
    (hFits : size ≤ Board.ramSize) : m.checkImage Board.ramStart size = .ok () := by
  rw [checkImage_ramStart_eq h, if_pos hFits]

theorem peekByte_copyImage (h : standard.places <+: m.places) {image : Array Byte}
    (hFits : image.size ≤ Board.ramSize) {a : Word} (ha : a.toNat < image.size) :
    (m.copyImage Board.ramStart image).peekByte a = .ok image[a.toNat] := by
  obtain ⟨name, bytes, rest, hBlocks, hSize⟩ := exists_blocks_eq h
  have hStart : ∀ a : Word, a - Board.ramStart = a := fun a => BitVec.sub_zero a
  have hRoom : 0 + image.size ≤ bytes.size := by omega
  have hCopied : (m.copyImage Board.ramStart image).blocks =
      ⟨name, Board.ramStart, .ram (overlay bytes 0 image)⟩ :: rest := by
    rw [copyImage, hBlocks, updateFirst, if_pos]
    · simp [Block.offset]
    · simp [Block.contains, Block.offset, Block.length, hSize, Board.ramSize]
  have hBlock : (m.copyImage Board.ramStart image).block? a =
      some ⟨name, Board.ramStart, .ram (overlay bytes 0 image)⟩ := by
    rw [block?, hCopied, List.find?_cons_of_pos]
    simp only [Block.contains, Block.offset, Block.length, hStart, size_overlay hRoom,
      decide_eq_true_eq]
    omega
  have hByte := getD_overlay hRoom ha
  rw [Nat.zero_add] at hByte
  simp only [peekByte, hBlock, Block.peek, Block.offset, hStart, hByte]

theorem peek_copyImage (h : standard.places <+: m.places) {image : Array Byte}
    (hFits : image.size ≤ Board.ramSize) {width : Width} {a : Word}
    (ha : a.toNat + width.bytes ≤ image.size) :
    (m.copyImage Board.ramStart image).peek width a =
      .ok (Word.ofBytes ((image.toList.drop a.toNat).take width.bytes)) := by
  have hBytes : (accessed a width.bytes).mapM (m.copyImage Board.ramStart image).peekByte =
      .ok ((image.toList.drop a.toNat).take width.bytes) := by
    refine mapM_eq_ok_iff.mpr (List.forall₂_iff_get.mpr ⟨?_, fun i hi hi' => ?_⟩)
    · simp only [accessed, List.length_map, List.length_range, List.length_take, List.length_drop,
        Array.length_toList]
      omega
    · have hSize : Board.ramSize = 1048576 := rfl
      have hLt : i < width.bytes := by simpa [accessed] using hi
      have hNat : (a + BitVec.ofNat 32 i).toNat = a.toNat + i := by
        rw [BitVec.toNat_add, BitVec.toNat_ofNat]
        omega
      simp only [accessed, List.get_eq_getElem, List.getElem_map, List.getElem_range,
        List.getElem_take, List.getElem_drop, Array.getElem_toList]
      rw [peekByte_copyImage h hFits (by omega)]
      simp only [hNat]
  rw [peek, hBytes]
  rfl

end Memory

namespace Machine

variable {m : Machine} {p : Program} {entry : Word}

/-- What loading a program that fits leaves. -/
def loaded (m : Machine) (p : Program) (entry : Word) : Machine :=
  { m with
    registers :=
      (m.registers.clear.store RegIndex.stackPointer.toNat Board.stackTop).resetAccess
    pc := entry
    state := .loaded
    steps := 0
    snapshot := some ⟨p.image, p.start, entry⟩
    memory := m.memory.reset.copyImage p.start p.image }

/-- Whether a program fits does not depend on what memory holds. -/
theorem reset_eq_ok (hMap : Memory.standard.places <+: m.memory.places)
    (hSnapshot : m.snapshot = some ⟨p.image, p.start, entry⟩)
    (hFits : p.image.size ≤ Board.ramSize) : reset m = .ok () (m.loaded p entry) := by
  rw [← Memory.places_reset m.memory] at hMap
  obtain ⟨registers, pc, state, steps, bus, snapshot, memory⟩ := m
  cases hSnapshot
  rw [reset]
  simp only [Program.start, Memory.checkImage_ramStart hMap hFits]
  rfl

theorem loadAt_eq_ok (h : Reachable m) (hFits : p.image.size ≤ Board.ramSize)
    (hEntry : entry.toNat % 4 = 0) : loadAt p entry m = .ok () (m.loaded p entry) := by
  rw [loadAt, if_neg (not_not_intro hEntry)]
  exact reset_eq_ok h.sound.map rfl hFits

theorem peek_loaded (entry : Word) (h : Reachable m) (hFits : p.image.size ≤ Board.ramSize) {a : Word}
    (ha : a.toNat + 4 ≤ p.image.size) :
    (m.loaded p entry).memory.peek .word a = .ok (p.word a.toNat) := by
  have hMap : Memory.standard.places <+: m.memory.reset.places := by
    rw [Memory.places_reset]
    exact h.sound.map
  exact Memory.peek_copyImage hMap hFits ha

theorem aboutTo_loaded {source : Text} {i : Nat} (h : Reachable m) (hp : assemble source = .ok p)
    (hFits : p.image.size ≤ Board.ramSize) (hLt : i < p.length) :
    AboutTo source p i (m.loaded p (BitVec.ofNat 32 (4 * i))) := by
  have hCode := size_image_of_assemble hp
  have hSize : Board.ramSize = 1048576 := rfl
  have hEntry : (BitVec.ofNat 32 (4 * i)).toNat = 4 * i := by
    rw [BitVec.toNat_ofNat]
    omega
  have hAligned : (BitVec.ofNat 32 (4 * i)).toNat % 4 = 0 := by omega
  have hCovered : (BitVec.ofNat 32 (4 * i)).toNat + 4 ≤ p.image.size := by omega
  have hPeek := peek_loaded (BitVec.ofNat 32 (4 * i)) h hFits hCovered
  rw [hEntry] at hPeek
  refine ⟨hp, ⟨m, _, _, h, loadAt_eq_ok h hFits hAligned, .refl⟩, nofun, hLt, ?_, hPeek⟩
  exact (BitVec.zero_add _).symm

/-! ### A fresh machine -/

/-- A fresh machine has all its registers, and after a load zeros in them but for the stack
pointer. -/
theorem cell_loaded_new (p : Program) (entry : Word) {i : Nat} (hi : i < 32) :
    (new.loaded p entry).registers.cell i =
      .enabled (if i = RegIndex.stackPointer.toNat then Board.stackTop else 0) .untouched := by
  have hAll : ∀ i < 32, RegisterFile.new.isEnabled i = true := by decide +kernel
  refine (RegisterFile.cell_initial _ i (by decide) Board.stackTop).trans ?_
  exact if_pos (hAll i hi)

theorem isEnabled_loaded_new (p : Program) (entry : Word) {i : Nat} (hi : i < 32) :
    (new.loaded p entry).registers.isEnabled i = true := by
  rw [RegisterFile.isEnabled, RegisterFile.access?, cell_loaded_new p entry hi]
  rfl

theorem peek_loaded_new (p : Program) (entry : Word) {i : Nat} (hi : i < 32)
    (hStack : i ≠ RegIndex.stackPointer.toNat) : (new.loaded p entry).registers.peek i = 0 := by
  rw [RegisterFile.peek, cell_loaded_new p entry hi, if_neg hStack]
  rfl

/-- A source that assembles to a program that fits can be stepped through from its first line. -/
theorem exists_aboutTo_new {source : Text} {β : Type} {f : Program → β} {n size : Nat} {b : β}
    (h : (assemble source).toOption.map (fun p => (p.length, p.image.size, f p)) = some (n, size, b))
    (hNonempty : 0 < n) (hFits : size ≤ Board.ramSize) :
    ∃ p, assemble source = .ok p ∧ AboutTo source p 0 (new.loaded p 0) ∧ p.length = n ∧
      p.image.size = size ∧ f p = b := by
  obtain ⟨p, hp, hFacts⟩ := exists_ok_of_map_eq h
  simp only [Prod.mk.injEq] at hFacts
  obtain ⟨hLength, hSize, hf⟩ := hFacts
  exact ⟨p, hp, aboutTo_loaded .refl hp (hSize.le.trans hFits) (by omega), hLength, hSize, hf⟩

end Machine

end NiosBoard
