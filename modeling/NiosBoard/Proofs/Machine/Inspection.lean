import NiosBoard.Proofs.Machine.SerialLine
import NiosBoard.Proofs.Machine.WideAccess

/-! # Peeking

A peek shows what a read would give, with the error that it would fail with, and changes nothing. A
read that touches no serial line gives what its peek shows however wide it is. At a serial line the
bytes of one read may change what the next ones give, but an access that leaves the receive register
alone moves at most a character behind it into it, and no peek can tell, now or later.
-/

namespace NiosBoard

namespace Uart

variable {d d' : Uart}

theorem refill_refill (d : Uart) : d.refill.refill = d.refill := by
  obtain ⟨rx, _ | _, _ | ⟨c, rest⟩⟩ := d <;> rfl

/-- Whether the receive register was filled before an access or is filled by it is the same. -/
theorem refill_access_refill (d : Uart) (a : Access) :
    (d.refill.access a).refill = (d.access a).refill := by
  cases a with
  | feed c => obtain ⟨rx, _ | _, _ | ⟨c, rest⟩⟩ := d <;> rfl
  | read offset => rw [access, access, read, read, refill_refill]
  | write offset v => rw [access, access, write, write, refill_refill]
  | peek offset => exact refill_refill d

theorem refill_after_congr (h : d'.refill = d.refill) (as : List Access) :
    (d'.after as).refill = (d.after as).refill := by
  induction as generalizing d d' with
  | nil => exact h
  | cons a as ih =>
    apply ih
    rw [← refill_access_refill, h, refill_access_refill]

theorem peek_congr (h : d'.refill = d.refill) (offset : Nat) : d'.peek offset = d.peek offset := by
  rw [peek_eq_read, peek_eq_read, read, read, h]

/-- The access neither brings a character nor asks for one. -/
def Access.Unobtrusive : Access → Prop
  | .feed _ => False
  | .read offset => offset ≠ rxOffset
  | .write _ _ | .peek _ => True

theorem refill_access {a : Access} (h : a.Unobtrusive) : (d.access a).refill = d.refill := by
  cases a with
  | feed c => exact h.elim
  | read offset => rw [access, read_of_ne d h, refill_refill]
  | write offset v => exact refill_refill d
  | peek offset => rfl

theorem refill_after {as : List Access} (h : ∀ a ∈ as, a.Unobtrusive) :
    (d.after as).refill = d.refill := by
  induction as generalizing d with
  | nil => rfl
  | cons a as ih =>
    rw [List.forall_mem_cons] at h
    exact (ih h.2).trans (refill_access h.1)

end Uart

theorem Device.peek_eq_read (d : Device) (offset : Nat) : d.peek offset = (d.read offset).1 := by
  cases d with
  | uart d => exact d.peek_eq_read offset
  | _ => rfl

namespace Block

/-- Whether stores are accepted does not depend on what a block holds. -/
theorem writable_congr {b b' : Block} (h : b'.reset = b.reset) (p p' : Panel) :
    (b'.device? p').map Device.writable = (b.device? p).map Device.writable := by
  obtain ⟨name, start, bytes | ⟨d, n⟩ | ⟨i, n⟩⟩ := b <;>
    obtain ⟨name', start', bytes' | ⟨d', n'⟩ | ⟨i', n'⟩⟩ := b' <;>
    simp only [reset, mk.injEq, reduceCtorEq, and_false, Backing.device.injEq,
      Backing.input.injEq] at h
  · rfl
  · cases d <;> cases d' <;> first | rfl | cases h.2.2.1
  · cases h.2.2.1
    cases i <;> rfl

end Block

namespace Memory

variable {m m' : Memory} {l : Line}

/-! ### What does not depend on the contents of blocks -/

theorem find?_blanks (m : Memory) (a : Word) :
    m.blanks.find? (·.contains a) = (m.block? a).map Block.reset :=
  find?_contains_map fun b => b.contains_reset a

theorem storeError?_congr (h : m'.blanks = m.blanks) (a : Word) :
    m'.storeError? a = m.storeError? a := by
  have hBlock : (m'.block? a).map Block.reset = (m.block? a).map Block.reset := by
    rw [← find?_blanks, ← find?_blanks, h]
  rw [storeError?, storeError?]
  cases hb : m.block? a with
  | none =>
    rw [hb, Option.map_none, Option.map_eq_none_iff] at hBlock
    rw [hBlock]
  | some b =>
    rw [hb, Option.map_some] at hBlock
    obtain ⟨b', hb', hReset⟩ := Option.map_eq_some_iff.mp hBlock
    have hWritable := Block.writable_congr hReset m.panel m'.panel
    rw [hb']
    simp only
    cases hd : b.device? m.panel with
    | none =>
      rw [hd, Option.map_none, Option.map_eq_none_iff] at hWritable
      rw [hWritable]
    | some d =>
      rw [hd, Option.map_some] at hWritable
      obtain ⟨d', hd', hSame⟩ := Option.map_eq_some_iff.mp hWritable
      rw [hd']
      simp only [hSame]

theorem checkMapped_congr (h : m'.blanks = m.blanks) (as : List Word) :
    m'.checkMapped as = m.checkMapped as := by
  induction as with
  | nil => rfl
  | cons a as ih => rw [checkMapped, checkMapped, isMapped_of_blanks h, ih]

theorem checkWritable_congr (h : m'.blanks = m.blanks) (as : List Word) :
    m'.checkWritable as = m.checkWritable as := by
  induction as with
  | nil => rfl
  | cons a as ih => rw [checkWritable, checkWritable, storeError?_congr h, ih]

theorem checkRange_congr (h : m'.blanks = m.blanks) (start : Word) (length : Nat) :
    m'.checkRange start length = m.checkRange start length := by
  have hAny : ∀ m : Memory,
      m.blocks.any (·.overlaps start length) = m.blanks.any (·.overlaps start length) := by
    intro m
    have hStart : ∀ b : Block, b.reset.start = b.start := fun b =>
      congrArg Place.start (place_reset b)
    simp only [blanks, List.any_map, Function.comp_def, Block.overlaps, Block.contains_reset,
      hStart]
  rw [checkRange, checkRange, hAny, hAny, h]

theorem registers?_congr (h : m'.blanks = m.blanks) (o : Op) :
    m'.registers? o = m.registers? o := by
  cases o with
  | addRam name start length =>
    rw [registers?, registers?, addRam, addRam, checkRange_congr h]
    cases m.checkRange start length <;> rfl
  | addDevice name start length d =>
    rw [registers?, registers?, addDevice, addDevice, checkRange_congr h]
    cases m.checkRange start length <;> rfl
  | _ => rfl

/-- An operation makes the same accesses to a line whatever the blocks hold. -/
theorem accesses_congr (h : m'.blanks = m.blanks) (l : Line) (o : Op) :
    m'.accesses l o = m.accesses l o := by
  cases o with
  | read width a => rw [accesses, accesses, checkMapped_congr h, reads_congr h]
  | write width a v => rw [accesses, accesses, checkWritable_congr h, writes_congr h]
  | _ => rfl

/-! ### Lines that look the same -/

/-- The blocks are the same but for what they hold, and no peek tells the lines apart. -/
structure SameLine (l : Line) (m m' : Memory) : Prop where
  blanks : m'.blanks = m.blanks
  refill : (m'.uart? l).map Uart.refill = (m.uart? l).map Uart.refill

theorem exists_uart?_of_offset? {a : Word} {i : Nat} (h : m.offset? l a = some i) :
    ∃ d, m.uart? l = some d := by
  obtain ⟨⟨name, start, backing⟩, hBlock, hOffset⟩ := Option.bind_eq_some_iff.mp h
  split at hOffset
  · next hLine =>
    cases backing with
    | ram bytes => cases hLine
    | device d n =>
      obtain ⟨u, hu, -⟩ := Option.map_eq_some_iff.mp hLine
      exact ⟨u, (uart?_of_line? hBlock rfl hLine).trans hu⟩
    | input i n =>
      obtain rfl : l = .panel := by
        cases i <;> cases hLine
        rfl
      exact ⟨_, rfl⟩
  · cases hOffset

/-- A line that answers for an address does so after every operation. -/
theorem offset?_apply {a : Word} {i : Nat} (h : m.offset? l a = some i) (o : Op) :
    (m.apply o).1.offset? l a = some i := by
  rw [offset?_eq_blanks] at h ⊢
  obtain ⟨b, hFind, hOffset⟩ := Option.bind_eq_some_iff.mp h
  have hIndex : m.blanks.findIdx (·.contains a) < m.blanks.length :=
    List.findIdx_lt_length_of_exists ⟨b, List.mem_of_find?_eq_some hFind, by
      simpa using List.find?_some hFind⟩
  rw [blanks_apply, List.find?_append, List.findIdx_append, if_pos hIndex, hFind]
  exact hOffset

namespace SameLine

theorem apply {a : Word} {i : Nat} (h : SameLine l m m') (ha : m.offset? l a = some i) (o : Op) :
    SameLine l (m.apply o).1 (m'.apply o).1 := by
  refine ⟨?_, ?_⟩
  · rw [blanks_apply, blanks_apply, registers?_congr h.blanks, h.blanks]
  have ha' : m'.offset? l a = some i := (offset?_congr h.blanks l a).trans ha
  obtain ⟨d, hd⟩ := exists_uart?_of_offset? ha
  obtain ⟨d', hd'⟩ := exists_uart?_of_offset? ha'
  by_cases ho : o = .reset
  · subst ho
    rw [show (m.apply .reset).1 = m.reset from rfl, show (m'.apply .reset).1 = m'.reset from rfl,
      uart?_reset hd ha, uart?_reset hd' ha']
  · have hRefill := h.refill
    rw [hd, hd', Option.map_some, Option.map_some, Option.some.injEq] at hRefill
    rw [uart?_apply hd ho, uart?_apply hd' ho, accesses_congr h.blanks, Option.map_some,
      Option.map_some, Uart.refill_after_congr hRefill]

theorem after {a : Word} {i : Nat} (h : SameLine l m m') (ha : m.offset? l a = some i)
    (os : List Op) : SameLine l (m.after os) (m'.after os) := by
  induction os generalizing m m' with
  | nil => exact h
  | cons o os ih => exact ih (h.apply ha o) (offset?_apply ha o)

theorem peekByte_eq {a : Word} {i : Nat} (h : SameLine l m m') (ha : m.offset? l a = some i) :
    m'.peekByte a = m.peekByte a := by
  have ha' : m'.offset? l a = some i := (offset?_congr h.blanks l a).trans ha
  obtain ⟨d, hd⟩ := exists_uart?_of_offset? ha
  obtain ⟨d', hd'⟩ := exists_uart?_of_offset? ha'
  have hRefill := h.refill
  rw [hd, hd', Option.map_some, Option.map_some, Option.some.injEq] at hRefill
  rw [peekByte_of_offset? ha hd, peekByte_of_offset? ha' hd', Uart.peek_congr hRefill]

end SameLine

theorem offset?_after {a : Word} {i : Nat} (h : m.offset? l a = some i) (os : List Op) :
    (m.after os).offset? l a = some i := by
  induction os generalizing m with
  | nil => exact h
  | cons o os ih => exact ih (offset?_apply h o)

/-- A write, or a read that touches no receive register of the line. -/
inductive Unobtrusive (m : Memory) (l : Line) : Op → Prop
  | read {width : Width} {a : Word}
      (h : ∀ x ∈ accessed a width.bytes, m.offset? l x ≠ some Uart.rxOffset) :
      Unobtrusive m l (.read width a)
  | write (width : Width) (a v : Word) : Unobtrusive m l (.write width a v)

theorem Unobtrusive.accesses {o : Op} (h : m.Unobtrusive l o) :
    ∀ x ∈ m.accesses l o, x.Unobtrusive := by
  intro x hx
  cases h with
  | @read width a h =>
    rw [Memory.accesses] at hx
    split at hx
    · obtain ⟨i, hi, rfl⟩ := List.mem_map.mp hx
      obtain ⟨y, hy, hOffset⟩ := List.mem_filterMap.mp hi
      rintro rfl
      exact h y hy hOffset
    · cases hx
  | write width a v =>
    rw [Memory.accesses] at hx
    split at hx
    · obtain ⟨s, -, hs⟩ := List.mem_filterMap.mp hx
      obtain ⟨i, -, rfl⟩ := Option.map_eq_some_iff.mp hs
      trivial
    · cases hx

theorem Unobtrusive.sameLine {o : Op} {a : Word} {i : Nat} (h : m.Unobtrusive l o)
    (ha : m.offset? l a = some i) : SameLine l m (m.apply o).1 := by
  obtain ⟨d, hd⟩ := exists_uart?_of_offset? ha
  have hNone : m.registers? o = none := by
    cases h <;> rfl
  have hReset : o ≠ .reset := by
    rintro rfl
    cases h
  refine ⟨?_, ?_⟩
  · rw [blanks_apply, hNone]
    exact List.append_nil _
  · rw [uart?_apply hd hReset, hd, Option.map_some, Option.map_some, Uart.refill_after h.accesses]

/-! ### Peeks and reads -/

theorem fst_fetch_of_block? {a : Word} {b : Block} (hBlock : m.block? a = some b) :
    (m.fetch a).1 = b.peek m.panel (b.offset a) := by
  obtain ⟨name, start, bytes | ⟨d, n⟩ | ⟨i, n⟩⟩ := b
  · simp only [fetch, hBlock]
    rfl
  · rw [fetch_of_device hBlock rfl]
    exact (Device.peek_eq_read d _).symm
  · rw [fetch_of_device hBlock rfl]
    exact (Device.peek_eq_read (m.panel.device i) _).symm

/-- The bytes of a peek are each what a read would give first, if all of them are mapped. -/
theorem mapM_peekByte (m : Memory) (as : List Word) :
    as.mapM m.peekByte = (fun _ => as.map fun a => (m.fetch a).1) <$> m.checkMapped as := by
  induction as with
  | nil => rfl
  | cons a as ih =>
    rw [List.mapM_cons, checkMapped, isMapped_eq_isSome, peekByte]
    cases hBlock : m.block? a with
    | none => rfl
    | some b =>
      rw [ih, Option.isSome_some, if_pos rfl, List.map_cons, fst_fetch_of_block? hBlock]
      cases m.checkMapped as <;> rfl

theorem peek_eq (m : Memory) (width : Width) (a : Word) :
    m.peek width a =
      (fun _ => Word.ofBytes ((accessed a width.bytes).map fun a => (m.fetch a).1)) <$>
        m.checkMapped (accessed a width.bytes) := by
  rw [peek, mapM_peekByte]
  cases m.checkMapped (accessed a width.bytes) <;> rfl

theorem fst_read_eq (m : Memory) (width : Width) (a : Word) :
    Prod.fst <$> m.read width a =
      (fun _ => Word.ofBytes (m.fetchAll (accessed a width.bytes)).1) <$>
        m.checkMapped (accessed a width.bytes) := by
  rw [read]
  cases m.checkMapped (accessed a width.bytes) <;> rfl

theorem peek_eq_error_iff (m : Memory) (width : Width) (a : Word) (e : MemoryError) :
    m.peek width a = .error e ↔ m.read width a = .error e := by
  rw [peek_eq, read]
  cases m.checkMapped (accessed a width.bytes) with
  | error e' =>
    constructor <;> intro h <;> cases h <;> rfl
  | ok u =>
    constructor <;> intro h <;> cases h

theorem not_characterWaits_of_offset? {a : Word} (h : ∀ l, m.offset? l a = none) :
    ¬ m.CharacterWaits a := by
  rintro ⟨⟨name, start, backing⟩, d, hBlock, hDevice, hWaits⟩
  cases d with
  | uart u =>
    cases backing with
    | ram bytes => cases hDevice
    | device d n =>
      cases hDevice
      have hLine := h (.own (m.index a))
      rw [offset?_of_block? hBlock, if_pos (by simp [Block.line?, Device.uart?])] at hLine
      cases hLine
    | input i n =>
      cases i <;> cases hDevice
      have hLine := h .panel
      rw [offset?_of_block? hBlock, if_pos (by simp [Block.line?])] at hLine
      cases hLine
  | _ => exact hWaits.elim

theorem fst_fetchAll_of_not_characterWaits {as : List Word}
    (h : ∀ a ∈ as, ¬ m.CharacterWaits a) :
    (m.fetchAll as).1 = as.map fun a => (m.fetch a).1 := by
  induction as with
  | nil => rfl
  | cons a as ih =>
    rw [List.forall_mem_cons] at h
    simp only [fetchAll, fetch_of_not_characterWaits h.1, ih h.2, List.map_cons]

theorem peek_eq_read {width : Width} {a : Word}
    (h : ∀ x ∈ accessed a width.bytes, ∀ l, m.offset? l x = none) :
    m.peek width a = Prod.fst <$> m.read width a := by
  rw [peek_eq, fst_read_eq, fst_fetchAll_of_not_characterWaits]
  exact fun x hx => not_characterWaits_of_offset? (h x hx)

/-- A single byte is read before its own access changes anything. -/
theorem peek_byte_eq_read (m : Memory) (a : Word) :
    m.peek .byte a = Prod.fst <$> m.read .byte a := by
  rw [peek_eq, fst_read_eq]
  rfl

theorem peekByte_eq_peek (m : Memory) (a : Word) :
    m.peekByte a = (·.setWidth 8) <$> m.peek .byte a := by
  have hAccessed : accessed a Width.byte.bytes = [a] := by
    show [a + 0#32] = [a]
    rw [BitVec.add_zero]
  rw [peek, hAccessed, List.mapM_cons]
  cases m.peekByte a with
  | error e => rfl
  | ok v =>
    have hByte : (Word.ofBytes [v]).setWidth 8 = v := by simp [Word.ofBytes]
    exact congrArg Except.ok hByte.symm

/-- A peek shows what the read of the same address would give, at any moment: the value and the
error of a byte; the value of more bytes if none of them is in a serial line, as the bytes of one
read are read one after another; the error in any case. Writes, and reads that do not touch the
receive register of a serial line, leave what is peeked there, whatever is done to the memory after
them. -/
theorem peeks_show_reads (m : Memory) :
    (∀ a, m.peekByte a = (fun r => r.1.setWidth 8) <$> m.read .byte a ∧
      m.peek .byte a = Prod.fst <$> m.read .byte a) ∧
    (∀ width a, (∀ x ∈ accessed a width.bytes, ∀ l, m.offset? l x = none) →
      m.peek width a = Prod.fst <$> m.read width a) ∧
    (∀ width a e, m.peek width a = .error e ↔ m.read width a = .error e) ∧
    ∀ l o, m.Unobtrusive l o → ∀ os width a,
      (∀ x ∈ accessed a width.bytes, ∃ i, m.offset? l x = some i) →
      ((m.apply o).1.after os).peek width a = (m.after os).peek width a := by
  refine ⟨fun a => ⟨?_, peek_byte_eq_read m a⟩, fun width a h => peek_eq_read h,
    peek_eq_error_iff m, ?_⟩
  · rw [peekByte_eq_peek, peek_byte_eq_read]
    cases m.read .byte a <;> rfl
  intro l o ho os width a ha
  have hBytes : (accessed a width.bytes).mapM ((m.apply o).1.after os).peekByte =
      (accessed a width.bytes).mapM (m.after os).peekByte := by
    apply mapM_congr_of_mem
    intro x hx
    obtain ⟨i, hi⟩ := ha x hx
    exact ((ho.sameLine hi).after hi os).peekByte_eq (offset?_after hi os)
  rw [peek, peek, hBytes]

variable {bytes : Array Byte}

theorem accessed_subset (a : Word) {n k : Nat} (h : n ≤ k) : accessed a n ⊆ accessed a k :=
  List.map_subset _ (List.range_subset.mpr h)

theorem offset?_switchesStart (hSize : bytes.size = Board.ramSize) (u : Uart) {a : Word}
    (ha : a ∈ accessed Board.switchesStart 4) (l : Line) : (board bytes u).offset? l a = none := by
  have hBlock : (board bytes u).block? a =
      some ⟨"switches".toList, Board.switchesStart, .input .switches Board.deviceSize⟩ :=
    block?_board_of_mem_accessed hSize u (by decide) (by decide) ha
  rw [offset?_of_block? hBlock, if_neg]
  simp [Block.line?]

/-- A character waits; the status is read, and another one arrives: the first is still shown. -/
theorem peeks_show_reads_board :
    ∃ m, m = standard.after [.feedSerial 0x6f] ∧
      (∀ x ∈ accessed Board.switchesStart Width.half.bytes, ∀ l, m.offset? l x = none) ∧
      m.peek .half Board.switchesStart = Prod.fst <$> m.read .half Board.switchesStart ∧
      m.Unobtrusive .panel (.read .byte (Board.uartStart + 2)) ∧
      (∀ x ∈ accessed Board.uartStart Width.byte.bytes, ∃ i, m.offset? .panel x = some i) ∧
      ((m.apply (.read .byte (Board.uartStart + 2))).1.after [.feedSerial 0x6b]).peek .byte
        Board.uartStart = .ok 0x6f := by
  have hSize : (Array.replicate Board.ramSize (0 : Byte)).size = Board.ramSize :=
    Array.size_replicate
  have hFed : standard.after [.feedSerial 0x6f] =
      board (Array.replicate Board.ramSize 0) ⟨0, false, [0x6f]⟩ := rfl
  refine ⟨_, rfl, ?_⟩
  rw [hFed]
  obtain ⟨-, hQuiet, -, hLater⟩ :=
    peeks_show_reads (board (Array.replicate Board.ramSize 0) ⟨0, false, [0x6f]⟩)
  have hSwitches : ∀ x ∈ accessed Board.switchesStart Width.half.bytes,
      ∀ l, (board (Array.replicate Board.ramSize 0) ⟨0, false, [0x6f]⟩).offset? l x = none := by
    intro x hx
    exact offset?_switchesStart hSize _ (accessed_subset _ (by decide) hx)
  have hStatus : (board (Array.replicate Board.ramSize 0) ⟨0, false, [0x6f]⟩).Unobtrusive .panel
      (.read .byte (Board.uartStart + 2)) := by
    refine .read fun x hx => ?_
    obtain rfl : x = Board.uartStart + 2 := by simpa [accessed, Width.bytes] using hx
    rw [offset?_uartStart hSize _ (by decide)]
    decide
  have hUart : ∀ x ∈ accessed Board.uartStart Width.byte.bytes,
      ∃ i, (board (Array.replicate Board.ramSize 0) ⟨0, false, [0x6f]⟩).offset? .panel x =
        some i := by
    intro x hx
    exact ⟨_, offset?_uartStart hSize _ (accessed_subset _ (by decide) hx)⟩
  refine ⟨hSwitches, hQuiet _ _ hSwitches, hStatus, hUart, ?_⟩
  rw [hLater .panel _ hStatus [.feedSerial 0x6b] .byte _ hUart]
  have hNext : (board (Array.replicate Board.ramSize 0) ⟨0, false, [0x6f]⟩).after
      [.feedSerial 0x6b] = board (Array.replicate Board.ramSize 0) ⟨0, false, [0x6f, 0x6b]⟩ := rfl
  have hByte : (board (Array.replicate Board.ramSize 0) ⟨0, false, [0x6f, 0x6b]⟩).peekByte
      Board.uartStart = .ok 0x6f :=
    peekByte_of_offset? (offset?_uartStart hSize _ (by decide)) rfl
  rw [hNext, peek, show accessed Board.uartStart Width.byte.bytes = [Board.uartStart] from rfl,
    List.mapM_cons, hByte]
  rfl

end Memory

end NiosBoard
