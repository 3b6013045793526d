import NiosBoard.Machine.Memory

/-! # The memory map

Where the blocks of a memory are and which of them are RAM. Accesses, images and resets keep the
blocks but for what they hold, and so the map. Reading RAM has no side effect.
-/

namespace NiosBoard

structure Place where
  start : Word
  length : Nat
  isRam : Bool
  deriving DecidableEq, Repr

def Place.contains (p : Place) (address : Word) : Bool := (address - p.start).toNat < p.length

def Block.place (b : Block) : Place := ⟨b.start, b.length, !b.isDevice⟩

theorem Block.exists_bytes_of_isRam {b : Block} (h : b.place.isRam = true) :
    ∃ bytes, b.backing = .ram bytes := by
  cases hBacking : b.backing with
  | ram bytes => exact ⟨bytes, rfl⟩
  | device d n => simp [place, isDevice, hBacking] at h
  | input i n => simp [place, isDevice, hBacking] at h

namespace Memory

def places (m : Memory) : List Place := m.blocks.map Block.place

/-- RAM answers for the address. -/
def IsRam (m : Memory) (address : Word) : Prop :=
  ∃ p, m.places.find? (·.contains address) = some p ∧ p.isRam = true

theorem exists_block_of_isRam {m : Memory} {address : Word} (h : m.IsRam address) :
    ∃ b bytes, m.block? address = some b ∧ b.backing = .ram bytes := by
  obtain ⟨p, hFind, hIsRam⟩ := h
  rw [places, List.find?_map, Option.map_eq_some_iff] at hFind
  obtain ⟨b, hBlock, rfl⟩ := hFind
  obtain ⟨bytes, hBytes⟩ := Block.exists_bytes_of_isRam hIsRam
  exact ⟨b, bytes, hBlock, hBytes⟩

/-! ### Reading RAM -/

theorem fetch_of_isRam {m : Memory} {address : Word} (h : m.IsRam address) :
    ∃ v, m.peekByte address = .ok v ∧ m.fetch address = (v, m) := by
  obtain ⟨b, bytes, hBlock, hBytes⟩ := exists_block_of_isRam h
  refine ⟨b.peek m.panel (b.offset address), ?_, ?_⟩
  · rw [peekByte, hBlock]
  · simp only [fetch, hBlock, Block.device?, hBytes]

theorem contains_of_block? {m : Memory} {address : Word} {b : Block}
    (h : m.block? address = some b) : b.contains address = true := by
  have hSome := List.find?_some h
  exact hSome

theorem isMapped_eq_isSome (m : Memory) (address : Word) :
    m.isMapped address = (m.block? address).isSome := by
  rw [isMapped, block?, Bool.eq_iff_iff, List.any_eq_true, List.find?_isSome]

theorem checkMapped_eq_ok {m : Memory} {addresses : List Word}
    (h : ∀ a ∈ addresses, m.isMapped a = true) : m.checkMapped addresses = .ok () := by
  induction addresses with
  | nil => rfl
  | cons a rest ih =>
    rw [checkMapped, if_pos (h a List.mem_cons_self)]
    exact ih fun b hb => h b (List.mem_cons_of_mem _ hb)

theorem checkMapped_of_isRam {m : Memory} {addresses : List Word}
    (h : ∀ a ∈ addresses, m.IsRam a) : m.checkMapped addresses = .ok () := by
  apply checkMapped_eq_ok
  intro a ha
  obtain ⟨b, -, hBlock, -⟩ := exists_block_of_isRam (h a ha)
  rw [isMapped_eq_isSome, hBlock, Option.isSome_some]

theorem fetchAll_of_isRam {m : Memory} {addresses : List Word}
    (h : ∀ a ∈ addresses, m.IsRam a) :
    ∃ vs, addresses.mapM m.peekByte = .ok vs ∧ m.fetchAll addresses = (vs, m) := by
  induction addresses with
  | nil => exact ⟨[], rfl, rfl⟩
  | cons a rest ih =>
    obtain ⟨v, hPeek, hFetch⟩ := fetch_of_isRam (h a List.mem_cons_self)
    obtain ⟨vs, hPeeks, hFetches⟩ := ih fun b hb => h b (List.mem_cons_of_mem _ hb)
    refine ⟨v :: vs, ?_, ?_⟩
    · rw [List.mapM_cons, hPeek, hPeeks]
      rfl
    · simp only [fetchAll, hFetch, hFetches]

theorem length_fetchAll (m : Memory) (as : List Word) : (m.fetchAll as).1.length = as.length := by
  induction as generalizing m with
  | nil => rfl
  | cons a as ih => exact congrArg (· + 1) (ih _)

/-! ### What keeps the blocks

Accesses and images change what blocks hold, never the blocks themselves. A reset leaves of a block
just what no access changes.
-/

/-- The blocks without what they hold. Switches and buttons keep their positions. -/
def blanks (m : Memory) : List Block := m.blocks.map Block.reset

theorem place_reset (b : Block) : b.reset.place = b.place := by
  obtain ⟨name, start, bytes | ⟨d, n⟩ | ⟨i, n⟩⟩ := b
  · simp [Block.reset, Block.place, Block.length, Block.isDevice]
  · rfl
  · rfl

theorem places_eq_map_blanks (m : Memory) : m.places = m.blanks.map Block.place := by
  rw [places, blanks, List.map_map]
  exact List.map_congr_left fun b _ => (place_reset b).symm

theorem map_updateFirst {β : Type} {g : Block → β} {address : Word} {f : Block → Block}
    {bs : List Block} (h : ∀ b, bs.find? (·.contains address) = some b → g (f b) = g b) :
    (updateFirst address f bs).map g = bs.map g := by
  induction bs with
  | nil => rfl
  | cons b bs ih =>
    rw [updateFirst]
    split
    · next hContains =>
      rw [List.map_cons, List.map_cons, h b (List.find?_cons_of_pos hContains)]
    · next hContains =>
      rw [List.map_cons, List.map_cons, ih]
      intro c hc
      apply h c
      rw [Bool.not_eq_true] at hContains
      rw [List.find?_cons, hContains]
      exact hc

theorem reset_read (d : Device) (offset : Nat) : (d.read offset).2.reset = d.reset := by
  cases d <;> rfl

theorem reset_write (d : Device) (offset : Nat) (v : Byte) :
    (d.write offset v).1.reset = d.reset := by
  cases d <;> rfl

theorem blanks_putDevice {m : Memory} {address : Word} {b : Block} {d d' : Device}
    (hBlock : m.block? address = some b) (hDevice : b.device? m.panel = some d)
    (hReset : d'.reset = d.reset) : (m.putDevice address b d').blanks = m.blanks := by
  unfold putDevice
  split
  · rfl
  · next d₁ n hBacking =>
    apply map_updateFirst
    intro c hc
    cases hBlock.symm.trans hc
    rw [Block.device?, hBacking] at hDevice
    cases hDevice
    simp only [Block.reset, hBacking, hReset]
  · rfl

theorem blanks_fetch (m : Memory) (address : Word) : (m.fetch address).2.blanks = m.blanks := by
  unfold fetch
  split
  · rfl
  next b hBlock =>
  split
  · rfl
  · next d hDevice => exact blanks_putDevice hBlock hDevice (reset_read d _)

theorem blanks_fetchAll (m : Memory) (addresses : List Word) :
    (m.fetchAll addresses).2.blanks = m.blanks := by
  induction addresses generalizing m with
  | nil => rfl
  | cons a rest ih => exact (ih _).trans (blanks_fetch m a)

theorem reset_store (notify : Bool) (b : Block) (address : Word) (v : Byte) :
    (b.store notify address v).1.reset = b.reset := by
  obtain ⟨name, start, bytes | ⟨d, n⟩ | ⟨i, n⟩⟩ := b
  · simp [Block.store, Block.reset]
  · exact congrArg (fun d => (⟨name, start, .device d n⟩ : Block)) (reset_write d _ v)
  · rfl

theorem map_reset_storeIn (notify : Bool) (address : Word) (v : Byte) (bs : List Block) :
    (storeIn notify address v bs).1.map Block.reset = bs.map Block.reset := by
  induction bs with
  | nil => rfl
  | cons b bs ih =>
    rw [storeIn]
    split
    · exact congrArg (· :: _) (reset_store notify b address v)
    · exact congrArg (_ :: ·) ih

theorem blanks_store (m : Memory) (address : Word) (v : Byte) :
    (m.store address v).1.blanks = m.blanks := by
  unfold store
  split
  · rfl
  · exact map_reset_storeIn m.notifyWrites address v m.blocks

theorem blanks_storeAll (m : Memory) (stores : List (Word × Byte)) :
    (m.storeAll stores).1.blanks = m.blanks := by
  induction stores generalizing m with
  | nil => rfl
  | cons s rest ih => exact (ih _).trans (blanks_store m s.1 s.2)

theorem size_overlay {bytes image : Array Byte} {offset : Nat} (h : offset + image.size ≤ bytes.size) :
    (overlay bytes offset image).size = bytes.size := by
  simp only [overlay, Array.size_append, Array.size_extract]
  omega

theorem blanks_copyImage {m : Memory} {start : Word} {image : Array Byte}
    (h : m.checkImage start image.size = .ok ()) : (m.copyImage start image).blanks = m.blanks := by
  apply map_updateFirst
  intro b hb
  unfold checkImage at h
  rw [show m.block? start = some b from hb] at h
  simp only at h
  split at h
  · next bytes hBytes =>
    split at h
    · next hFits => simp only [Block.reset, hBytes, size_overlay hFits]
    · cases h
  · cases h

theorem reset_reset (b : Block) : b.reset.reset = b.reset := by
  obtain ⟨name, start, bytes | ⟨d, n⟩ | ⟨i, n⟩⟩ := b
  · simp [Block.reset]
  · cases d <;> rfl
  · rfl

theorem blanks_reset (m : Memory) : m.reset.blanks = m.blanks := by
  simp [blanks, reset, reset_reset]

theorem places_reset (m : Memory) : m.reset.places = m.places := by
  rw [places_eq_map_blanks, blanks_reset, places_eq_map_blanks]

/-- Where an image fits there is RAM, and room for all of it. -/
theorem exists_block_of_checkImage {m : Memory} {start : Word} {size : Nat}
    (h : m.checkImage start size = .ok ()) :
    ∃ p, m.places.find? (·.contains start) = some p ∧ p.isRam = true ∧
      (start - p.start).toNat + size ≤ p.length := by
  unfold checkImage at h
  split at h
  · cases h
  next b hBlock =>
  split at h
  · next bytes hBytes =>
    split at h
    · next hFits =>
      refine ⟨b.place, ?_, ?_, ?_⟩
      · rw [places, List.find?_map]
        exact congrArg (Option.map Block.place) hBlock
      · simp [Block.place, Block.isDevice, hBytes]
      · rw [show b.place.length = bytes.size by simp [Block.place, Block.length, hBytes]]
        exact hFits
    · cases h
  · cases h

end Memory

end NiosBoard
