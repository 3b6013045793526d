import Mathlib.Logic.Function.Basic
import NiosBoard.Proofs.Machine.ByteAccess
import NiosBoard.Proofs.Machine.MemoryMap
import NiosBoard.Proofs.Machine.Reset

/-! # What a listener can follow

Registers, program counter, RAM and LEDs change with the events that report it. On the board, which
has LEDs in one place only, a store to memory reports just what it changes of RAM and LEDs, if
stores are reported at all; a read changes neither.
-/

namespace NiosBoard

namespace Event

def isPc : Event → Bool
  | .pc _ => true
  | _ => false

def isHalted : Event → Bool
  | .halted _ => true
  | _ => false

/-- The event reports what an instruction has done, not that it is over. -/
def IsEffect (e : Event) : Prop := e.isPc = false ∧ e.isHalted = false

end Event

structure View where
  registers : Nat → Word
  pc : Word
  /-- The bytes of RAM, where there is RAM. -/
  ram : Word → Option Byte
  leds : Option (BitVec 4)

/-- The view after an event: one value is overwritten, or none. -/
def View.observe (v : View) : Event → View
  | .register i w => { v with registers := Function.update v.registers i w }
  | .pc a => { v with pc := a }
  | .memory a x => { v with ram := Function.update v.ram a (some x) }
  | .leds s => { v with leds := some s }
  | .serial _ => v
  | .halted _ => v

namespace Block

def bytes? (b : Block) : Option (Array Byte) :=
  match b.backing with
  | .ram bytes => some bytes
  | _ => none

def leds? (b : Block) : Option (BitVec 4) :=
  match b.backing with
  | .device (.leds d) _ => some d.state
  | _ => none

/-- The block with its own device at power-on. -/
def settled (b : Block) : Block :=
  match b.backing with
  | .ram _ => b
  | _ => b.reset

variable (b : Block)

theorem contains_settled (a : Word) : b.settled.contains a = b.contains a := by
  rw [settled]
  split
  · rfl
  · exact b.contains_reset a

theorem offset_settled (a : Word) : b.settled.offset a = b.offset a := by
  rw [settled]
  split
  · rfl
  · exact b.offset_reset a

theorem bytes?_settled : b.settled.bytes? = b.bytes? := by
  obtain ⟨name, start, bytes | ⟨d, n⟩ | ⟨i, n⟩⟩ := b <;> rfl

end Block

namespace Memory

variable {m m' : Memory} {a : Word} {b : Block}

def ram? (m : Memory) (a : Word) : Option Byte :=
  (m.block? a).bind fun b => b.bytes?.map fun bytes => bytes.getD (b.offset a) 0

def leds? (m : Memory) : Option (BitVec 4) := m.blocks.findSome? Block.leds?

theorem ram?_congr (h : m'.blocks.map Block.settled = m.blocks.map Block.settled) :
    m'.ram? = m.ram? := by
  have hSettled : ∀ (m : Memory) (a : Word), m.ram? a =
      ((m.blocks.map Block.settled).find? (·.contains a)).bind fun b =>
        b.bytes?.map fun bytes => bytes.getD (b.offset a) 0 := by
    intro m a
    rw [find?_contains_map (Block.contains_settled · a), Option.bind_map]
    simp only [Function.comp_def, Block.offset_settled, Block.bytes?_settled]
    rfl
  funext a
  rw [hSettled, hSettled, h]

/-- Every byte that RAM holds is there to be seen. -/
theorem WellFormed.ram?_eq (h : m.WellFormed) (hb : b ∈ m.blocks) {bytes : Array Byte}
    (hBytes : b.backing = .ram bytes) {k : Nat} (hk : k < bytes.size) :
    m.ram? (b.start + BitVec.ofNat 32 k) = some bytes[k] := by
  have hSize : bytes.size = b.place.length := by simp only [Block.place, Block.length, hBytes]
  have hFits := (h.fits b.place (List.mem_map_of_mem hb)).le
  have hOffset : b.offset (b.start + BitVec.ofNat 32 k) = k := by
    rw [Block.offset, BitVec.toNat_sub, BitVec.toNat_add, BitVec.toNat_ofNat]
    omega
  have hContains : b.contains (b.start + BitVec.ofNat 32 k) = true := by
    simpa [Block.contains, hOffset, Block.length, hBytes] using hk
  rw [ram?, h.block?_eq hb hContains, Option.bind_some, Block.bytes?, hBytes, hOffset]
  simp [hk]

theorem leds?_congr (h : m'.blocks.map Block.leds? = m.blocks.map Block.leds?) :
    m'.leds? = m.leds? := by
  have hMap : ∀ m : Memory, m.leds? = (m.blocks.map Block.leds?).findSome? id := by
    intro m
    rw [List.findSome?_map]
    rfl
  rw [hMap, hMap, h]

theorem block?_updateFirst {f : Block → Block}
    (hBlanks : (updateFirst a f m.blocks).map Block.reset = m.blanks) (a' : Word) :
    ({ m with blocks := updateFirst a f m.blocks } : Memory).block? a' =
      (m.block? a').map fun b => if m.index a = m.index a' then f b else b := by
  have hIndex : ({ m with blocks := updateFirst a f m.blocks } : Memory).index a' = m.index a' := by
    rw [index_eq_blanks, index_eq_blanks]
    exact congrArg _ hBlanks
  rw [← getElem?_index, hIndex, ← getElem?_index m a']
  exact getElem?_updateFirst a f m.blocks _

/-! ### The board -/

/-- The board with more RAM, if any, that reports stores to it. -/
structure Reported (m : Memory) : Prop where
  board : standard.blocks <+: m.blanks
  added : ∀ b ∈ m.added, b.isDevice = false
  notifyWrites : m.notifyWrites = true

theorem Reported.of_blanks (h : m.Reported) (hBlanks : m'.blanks = m.blanks)
    (hNotify : m'.notifyWrites = m.notifyWrites) : m'.Reported := by
  refine ⟨hBlanks ▸ h.board, ?_, hNotify.trans h.notifyWrites⟩
  rw [Memory.added, hBlanks]
  exact h.added

/-- The LEDs are the only device that a block of its own holds. -/
theorem Reported.reset_eq_of_device (h : m.Reported) (hb : b ∈ m.blocks) {d : Device} {n : Nat}
    (hDevice : b.backing = .device d n) :
    b.reset = ⟨"leds".toList, Board.ledsStart, .device (.leds Leds.new) Board.deviceSize⟩ := by
  have hBlank : b.reset ∈ standard.blocks ++ m.added := by
    rw [← blanks_eq_append_added h.board]
    exact List.mem_map_of_mem hb
  have hOwn : b.reset.backing = .device d.reset n := by
    rw [Block.reset, hDevice]
  rcases List.mem_append.mp hBlank with hStandard | hAdded
  · simp only [standard, List.mem_cons, List.not_mem_nil, or_false] at hStandard
    rcases hStandard with hb | hb | hb | hb | hb
    · rw [hb] at hOwn
      cases hOwn
    · exact hb
    · rw [hb] at hOwn
      cases hOwn
    · rw [hb] at hOwn
      cases hOwn
    · rw [hb] at hOwn
      cases hOwn
  · have hRam := h.added _ hAdded
    rw [Block.isDevice, hOwn] at hRam
    cases hRam

theorem findSome?_leds? {bs : List Block} {s : BitVec 4}
    (hOnly : ∀ c ∈ bs, c.leds?.isSome → c.contains a = true)
    (hFind : bs.find? (·.contains a) = some b) (hLeds : b.leds? = some s) :
    bs.findSome? Block.leds? = some s := by
  induction bs with
  | nil => cases hFind
  | cons c bs ih =>
    rw [List.find?_cons] at hFind
    rw [List.findSome?_cons]
    cases hContains : c.contains a with
    | true =>
      rw [hContains] at hFind
      cases hFind
      rw [hLeds]
    | false =>
      rw [hContains] at hFind
      have hDark : c.leds? = none := by
        rw [← Option.not_isSome_iff_eq_none]
        intro hSome
        cases hContains.symm.trans (hOnly c List.mem_cons_self hSome)
      rw [hDark]
      exact ih (fun c' hc' => hOnly c' (List.mem_cons_of_mem c hc')) hFind

theorem Reported.leds?_eq (h : m.Reported) (hBlock : m.block? a = some b) {s : BitVec 4}
    (hLeds : b.leds? = some s) : m.leds? = some s := by
  have hReset : ∀ c ∈ m.blocks, c.leds?.isSome → c.reset =
      ⟨"leds".toList, Board.ledsStart, .device (.leds Leds.new) Board.deviceSize⟩ := by
    rintro ⟨name, start, bytes | ⟨d, n⟩ | ⟨i, n⟩⟩ hc hSome
    · cases hSome
    · exact h.reset_eq_of_device hc rfl
    · cases hSome
  have hb := hReset b (List.mem_of_find?_eq_some hBlock) (by rw [hLeds]; rfl)
  refine findSome?_leds? ?_ hBlock hLeds
  intro c hc hSome
  rw [← c.contains_reset, hReset c hc hSome, ← hb, b.contains_reset, contains_of_block? hBlock]

/-! ### Accesses -/

theorem ram?_putDevice {d d' : Device} (hBlock : m.block? a = some b)
    (hDevice : b.device? m.panel = some d) (hReset : d'.reset = d.reset) :
    (m.putDevice a b d').ram? = m.ram? := by
  obtain ⟨name, start, bytes | ⟨d₁, n⟩ | ⟨i, n⟩⟩ := b
  · cases hDevice
  · cases hDevice
    apply ram?_congr
    apply map_updateFirst
    intro c hc
    cases hBlock.symm.trans hc
    simp only [Block.settled, Block.reset, hReset]
  · rfl

theorem leds?_putDevice_read {d : Device} (hBlock : m.block? a = some b)
    (hDevice : b.device? m.panel = some d) (offset : Nat) :
    (m.putDevice a b (d.read offset).2).leds? = m.leds? := by
  obtain ⟨name, start, bytes | ⟨d₁, n⟩ | ⟨i, n⟩⟩ := b
  · cases hDevice
  · cases hDevice
    apply leds?_congr
    apply map_updateFirst
    intro c hc
    cases hBlock.symm.trans hc
    cases d <;> rfl
  · rfl

theorem notifyWrites_store (m : Memory) (a : Word) (x : Byte) :
    (m.store a x).1.notifyWrites = m.notifyWrites := by
  rw [store]
  split <;> rfl

theorem notifyWrites_putDevice (m : Memory) (a : Word) (b : Block) (d : Device) :
    (m.putDevice a b d).notifyWrites = m.notifyWrites := by
  obtain ⟨name, start, bytes | ⟨d₁, n⟩ | ⟨i, n⟩⟩ := b <;> rfl

theorem notifyWrites_fetch (m : Memory) (a : Word) :
    (m.fetch a).2.notifyWrites = m.notifyWrites := by
  rw [fetch]
  split
  · rfl
  split
  · rfl
  · exact notifyWrites_putDevice ..

theorem notifyWrites_fetchAll (m : Memory) (as : List Word) :
    (m.fetchAll as).2.notifyWrites = m.notifyWrites := by
  induction as generalizing m with
  | nil => rfl
  | cons a as ih => exact (ih _).trans (notifyWrites_fetch m a)

theorem Reported.fetchAll (h : m.Reported) (as : List Word) : (m.fetchAll as).2.Reported :=
  h.of_blanks (blanks_fetchAll m as) (notifyWrites_fetchAll m as)

theorem Reported.store (h : m.Reported) (a : Word) (x : Byte) : (m.store a x).1.Reported :=
  h.of_blanks (blanks_store m a x) (notifyWrites_store m a x)

theorem Reported.storeAll (h : m.Reported) (ss : List (Word × Byte)) :
    (m.storeAll ss).1.Reported := by
  induction ss generalizing m with
  | nil => exact h
  | cons s ss ih => exact ih (h.store s.1 s.2)

theorem isEffect_write (d : Device) (offset : Nat) (x : Byte) :
    ∀ e ∈ (d.write offset x).2, e.IsEffect := by
  intro e he
  cases d with
  | leds d =>
    change e ∈ (d.write offset x).2 at he
    rw [Leds.write] at he
    split at he
    · rw [List.mem_singleton.mp he]
      exact ⟨rfl, rfl⟩
    · cases he
  | switches d => cases he
  | buttons d => cases he
  | uart d =>
    change e ∈ (d.write offset x).2 at he
    rw [Uart.write] at he
    split at he
    · rw [List.mem_singleton.mp he]
      exact ⟨rfl, rfl⟩
    · cases he

theorem isEffect_store (m : Memory) (a : Word) (x : Byte) : ∀ e ∈ (m.store a x).2, e.IsEffect := by
  intro e he
  cases hBlock : m.block? a with
  | none =>
    rw [store_of_block?_eq_none hBlock] at he
    cases he
  | some b =>
    cases hDevice : b.device? m.panel with
    | none =>
      obtain ⟨bytes, hBytes⟩ := b.exists_bytes_of_device? hDevice
      rw [store_of_ram hBlock hBytes] at he
      split at he
      · rw [List.mem_singleton.mp he]
        exact ⟨rfl, rfl⟩
      · cases he
    | some d =>
      rw [store_of_device hBlock hDevice] at he
      exact isEffect_write d _ x e he

theorem isEffect_storeAll (m : Memory) (ss : List (Word × Byte)) :
    ∀ e ∈ (m.storeAll ss).2, e.IsEffect := by
  induction ss generalizing m with
  | nil => exact fun _ he => nomatch he
  | cons s ss ih =>
    exact List.forall_mem_append.mpr ⟨isEffect_store m s.1 s.2, ih _⟩

theorem getD_setIfInBounds {bytes : Array Byte} {i : Nat} (hi : i < bytes.size) (x : Byte)
    (j : Nat) : (bytes.setIfInBounds i x).getD j 0 = if i = j then x else bytes.getD j 0 := by
  rw [Array.getD_eq_getD_getElem?, Array.getD_eq_getD_getElem?, Array.getElem?_setIfInBounds]
  split <;> rfl

/-- A store to RAM shows at its address and nowhere else. -/
theorem ram?_store_of_ram {bytes : Array Byte} (hBlock : m.block? a = some b)
    (hBytes : b.backing = .ram bytes) (x : Byte) :
    (m.store a x).1.ram? = Function.update m.ram? a (some x) := by
  have hBlanks := blanks_store m a x
  rw [store_of_ram hBlock hBytes] at hBlanks ⊢
  funext a'
  rw [ram?, block?_updateFirst hBlanks]
  -- an address in another block is none of the store's business
  by_cases hIndex : m.index a = m.index a'
  · have hSame : m.block? a' = some b := by
      rw [← getElem?_index, ← hIndex, getElem?_index, hBlock]
    have hInside : b.offset a < bytes.size := by
      simpa [Block.contains, Block.length, hBytes] using contains_of_block? hBlock
    rw [hSame, Option.map_some, Option.bind_some, if_pos hIndex]
    show some ((bytes.setIfInBounds (b.offset a) x).getD (b.offset a') 0) = _
    rw [getD_setIfInBounds hInside]
    by_cases ha : a' = a
    · subst ha
      rw [if_pos rfl, Function.update_self]
    · have hOffset : b.offset a ≠ b.offset a' := by
        intro h
        exact ha ((BitVec.sub_left_inj _).mp (BitVec.eq_of_toNat_eq h)).symm
      rw [if_neg hOffset, Function.update_of_ne ha, ram?, hSame, Option.bind_some, Block.bytes?,
        hBytes]
      rfl
  · have ha : a' ≠ a := by
      rintro rfl
      exact hIndex rfl
    simp only [if_neg hIndex, Option.map_id']
    rw [Function.update_of_ne ha]
    rfl

theorem leds?_store_of_ram {bytes : Array Byte} (hBlock : m.block? a = some b)
    (hBytes : b.backing = .ram bytes) (x : Byte) : (m.store a x).1.leds? = m.leds? := by
  rw [store_of_ram hBlock hBytes]
  apply leds?_congr
  apply map_updateFirst
  intro c hc
  cases hBlock.symm.trans hc
  simp only [Block.leds?, hBytes]

theorem Reported.leds?_putDevice (h : m.Reported) {name : Text} {start : Word} {l l' : Leds} {n : Nat}
    (hBlock : m.block? a = some ⟨name, start, .device (.leds l) n⟩) :
    (m.putDevice a ⟨name, start, .device (.leds l) n⟩ (.leds l')).leds? = some l'.state := by
  have hBlanks : (m.putDevice a ⟨name, start, .device (.leds l) n⟩ (.leds l')).blanks = m.blanks :=
    blanks_putDevice hBlock rfl rfl
  refine (h.of_blanks hBlanks rfl).leds?_eq (a := a) (b := ⟨name, start, .device (.leds l') n⟩) ?_ rfl
  refine (block?_updateFirst hBlanks a).trans ?_
  rw [hBlock, Option.map_some, if_pos rfl]

end Memory

namespace View

variable {m : Memory} {a : Word} {b : Block}

/-- The view with what a memory shows of itself. -/
def withMemory (v : View) (m : Memory) : View := { v with ram := m.ram?, leds := m.leds? }

theorem withMemory_congr (v : View) {m' : Memory} (hRam : m'.ram? = m.ram?)
    (hLeds : m'.leds? = m.leds?) : v.withMemory m' = v.withMemory m := by
  rw [withMemory, withMemory, hRam, hLeds]

theorem withMemory_fetch (v : View) (m : Memory) (a : Word) :
    v.withMemory (m.fetch a).2 = v.withMemory m := by
  cases hBlock : m.block? a with
  | none => rw [Memory.fetch, hBlock]
  | some b =>
    cases hDevice : b.device? m.panel with
    | none => simp only [Memory.fetch, hBlock, hDevice]
    | some d =>
      rw [Memory.fetch_of_device hBlock hDevice]
      exact v.withMemory_congr (Memory.ram?_putDevice hBlock hDevice (Memory.reset_read d _))
        (Memory.leds?_putDevice_read hBlock hDevice _)

theorem withMemory_fetchAll (v : View) (m : Memory) (as : List Word) :
    v.withMemory (m.fetchAll as).2 = v.withMemory m := by
  induction as generalizing m with
  | nil => rfl
  | cons a as ih => exact (ih _).trans (v.withMemory_fetch m a)

theorem withMemory_store_of_ram (v : View) {bytes : Array Byte} (hBlock : m.block? a = some b)
    (hBytes : b.backing = .ram bytes) (x : Byte) :
    v.withMemory (m.store a x).1 = (v.withMemory m).observe (.memory a x) := by
  rw [withMemory, Memory.ram?_store_of_ram hBlock hBytes, Memory.leds?_store_of_ram hBlock hBytes]
  rfl

/-- LEDs report what they show from now on; at other offsets they ignore the store. -/
theorem withMemory_store_of_leds (v : View) (h : m.Reported) {name : Text} {start : Word} {l : Leds}
    {n : Nat} (hBlock : m.block? a = some ⟨name, start, .device (.leds l) n⟩) (x : Byte) :
    v.withMemory (m.store a x).1 = (m.store a x).2.foldl observe (v.withMemory m) := by
  have hRam (l' : Leds) : (m.putDevice a ⟨name, start, .device (.leds l) n⟩ (.leds l')).ram? =
      m.ram? := Memory.ram?_putDevice hBlock rfl rfl
  have hLeds (l' : Leds) : (m.putDevice a ⟨name, start, .device (.leds l) n⟩ (.leds l')).leds? =
      some l'.state := h.leds?_putDevice hBlock
  have hStore : m.store a x = (m.putDevice a _ (.leds (l.write (a - start).toNat x).1),
      (l.write (a - start).toNat x).2) := Memory.store_of_device hBlock rfl x
  rw [hStore, Leds.write]
  split
  · rw [withMemory, hRam, hLeds]
    rfl
  · exact v.withMemory_congr (hRam l) ((hLeds l).trans (h.leds?_eq hBlock rfl).symm)

theorem withMemory_store_of_input (v : View) {name : Text} {start : Word} {i : Input} {n : Nat}
    (hBlock : m.block? a = some ⟨name, start, .input i n⟩) (x : Byte) :
    v.withMemory (m.store a x).1 = (m.store a x).2.foldl observe (v.withMemory m) := by
  rw [Memory.store_of_device hBlock rfl]
  cases i with
  | switches => rfl
  | buttons => rfl
  | uart =>
    show v.withMemory m = (m.panel.uart.write _ x).2.foldl observe _
    rw [Uart.write]
    split <;> rfl

theorem withMemory_store (v : View) (h : m.Reported) (a : Word) (x : Byte) :
    v.withMemory (m.store a x).1 = (m.store a x).2.foldl observe (v.withMemory m) := by
  cases hBlock : m.block? a with
  | none =>
    rw [Memory.store_of_block?_eq_none hBlock]
    rfl
  | some b =>
    obtain ⟨name, start, bytes | ⟨d, n⟩ | ⟨i, n⟩⟩ := b
    · rw [withMemory_store_of_ram v hBlock rfl, Memory.store_of_ram hBlock rfl, h.notifyWrites]
      rfl
    · have hReset := h.reset_eq_of_device (List.mem_of_find?_eq_some hBlock) rfl
      cases d with
      | leds l => exact withMemory_store_of_leds v h hBlock x
      | _ => cases hReset
    · exact withMemory_store_of_input v hBlock x

theorem withMemory_storeAll (v : View) (h : m.Reported) (ss : List (Word × Byte)) :
    v.withMemory (m.storeAll ss).1 = (m.storeAll ss).2.foldl observe (v.withMemory m) := by
  induction ss generalizing m with
  | nil => rfl
  | cons s ss ih =>
    show v.withMemory ((m.store s.1 s.2).1.storeAll ss).1 =
      ((m.store s.1 s.2).2 ++ ((m.store s.1 s.2).1.storeAll ss).2).foldl observe _
    rw [ih (h.store s.1 s.2), withMemory_store v h, List.foldl_append]

end View

end NiosBoard
