import NiosBoard.Proofs.Machine.Inspection
import NiosBoard.Proofs.Machine.Invariants
import NiosBoard.Proofs.Machine.Reset
import NiosBoard.Proofs.Machine.ShownImmediates

/-! # Switches and buttons

The panel works them, and nothing else does: not the program, not the host through memory, no load
and no reset. What they show is a summary of the calls so far, and it is what every access to their
addresses reads. Stores are turned away before the first byte is written.
-/

namespace NiosBoard

/-! ### Calls -/

theorem getLsbD_one_shiftLeft {j : Nat} (hj : j < 4) (i : Nat) :
    (1#4 <<< j).getLsbD i = decide (j = i) := by
  refine (BitVec.getLsbD_twoPow j i).trans ?_
  rw [decide_eq_true hj, Bool.true_and]

namespace Switches

def word (d : Switches) : Word := d.state.setWidth 32

/-- The switches after calls, each with the number of a switch. -/
def flipped (d : Switches) (calls : List Nat) : Switches :=
  calls.foldl (fun d i => (d.toggle? i).getD d) d

theorem toggle?_eq_none_iff {d : Switches} {i : Nat} : d.toggle? i = none ↔ 4 ≤ i := by
  rw [toggle?]
  split <;> simp <;> omega

theorem getLsbD_toggle (d : Switches) (j i : Nat) :
    ((d.toggle? j).getD d).state.getLsbD i =
      (d.state.getLsbD i ^^ (decide (i < 4) && decide (j = i))) := by
  rw [toggle?]
  split
  · next hj =>
    rw [Option.getD_some, BitVec.getLsbD_xor, getLsbD_one_shiftLeft hj]
    by_cases hji : j = i
    · simp [← hji, hj]
    · simp [hji]
  · next hj =>
    by_cases hji : j = i
    · simp [← hji, hj]
    · simp [hji]

/-- A switch is where it was, or not, as the calls for it are even or odd. -/
theorem getLsbD_flipped (d : Switches) (calls : List Nat) (i : Nat) :
    (d.flipped calls).state.getLsbD i =
      (d.state.getLsbD i ^^ (decide (i < 4) && decide (Odd (calls.count i)))) := by
  induction calls generalizing d with
  | nil => simp [flipped]
  | cons j calls ih =>
    have hOdd : decide (Odd ((j :: calls).count i)) =
        (decide (j = i) ^^ decide (Odd (calls.count i))) := by
      rw [List.count_cons]
      by_cases hji : j = i <;> simp [hji, Nat.odd_add_one, -Nat.not_odd_iff_even]
    refine (ih _).trans ?_
    rw [getLsbD_toggle, hOdd, Bool.xor_assoc, Bool.and_xor_distrib_left]

end Switches

namespace Buttons

def word (d : Buttons) : Word := d.state.setWidth 32

/-- The buttons after calls, each with the number of a button and whether it is pressed. -/
def worked (d : Buttons) (calls : List (Nat × Bool)) : Buttons :=
  calls.foldl (fun d c => (d.set? c.1 c.2).getD d) d

theorem set?_eq_none_iff {d : Buttons} {i : Nat} {pressed : Bool} :
    d.set? i pressed = none ↔ 4 ≤ i := by
  rw [set?]
  split <;> simp <;> omega

theorem getLsbD_set (d : Buttons) (j : Nat) (pressed : Bool) {i : Nat} (hi : i < 4) :
    ((d.set? j pressed).getD d).state.getLsbD i =
      if j = i then pressed else d.state.getLsbD i := by
  rw [set?]
  split
  · next hj =>
    have hBit := getLsbD_one_shiftLeft hj i
    rw [Option.getD_some]
    cases pressed with
    | true =>
      rw [if_pos rfl, BitVec.getLsbD_or, hBit]
      by_cases hji : j = i <;> simp [hji]
    | false =>
      rw [if_neg Bool.false_ne_true, BitVec.getLsbD_and, BitVec.getLsbD_not, hBit,
        decide_eq_true hi]
      by_cases hji : j = i <;> simp [hji]
  · next hj =>
    rw [Option.getD_none, if_neg]
    rintro rfl
    exact hj hi

/-- A button is as the last call for it said, or as it was. -/
theorem getLsbD_worked (d : Buttons) (calls : List (Nat × Bool)) {i : Nat} (hi : i < 4) :
    (d.worked calls).state.getLsbD i = (calls.reverse.lookup i).getD (d.state.getLsbD i) := by
  induction calls generalizing d with
  | nil => rfl
  | cons c calls ih =>
    obtain ⟨j, pressed⟩ := c
    refine (ih _).trans ?_
    rw [getLsbD_set d j pressed hi, List.reverse_cons, List.lookup_append, List.lookup_cons]
    cases calls.reverse.lookup i with
    | some last => rfl
    | none =>
      by_cases hij : i = j
      · simp [hij]
      · simp [beq_false_of_ne hij, Ne.symm hij]

end Buttons

/-- Of the panel, switches and buttons are those that the calls make of them. -/
structure Panel.Worked (toggles : List Nat) (presses : List (Nat × Bool)) (p p' : Panel) :
    Prop where
  switches : p'.switches = p.switches.flipped toggles
  buttons : p'.buttons = p.buttons.worked presses

namespace Panel.Worked

variable {p p' p'' : Panel} {toggles toggles' : List Nat} {presses presses' : List (Nat × Bool)}

theorem refl : Worked [] [] p p := ⟨rfl, rfl⟩

theorem trans (h : Worked toggles presses p p') (h' : Worked toggles' presses' p' p'') :
    Worked (toggles ++ toggles') (presses ++ presses') p p'' := by
  constructor
  · rw [h'.switches, h.switches, Switches.flipped, Switches.flipped, Switches.flipped,
      List.foldl_append]
  · rw [h'.buttons, h.buttons, Buttons.worked, Buttons.worked, Buttons.worked, List.foldl_append]

end Panel.Worked

/-! ### What leaves them alone -/

namespace Memory

variable {m : Memory}

theorem worked_fetchAll (m : Memory) (as : List Word) :
    Panel.Worked [] [] m.panel (m.fetchAll as).2.panel := by
  have hPanel := congrArg Memory.panel (withoutSerial_fetchAll m as)
  have hSwitches := congrArg Panel.switches hPanel
  have hButtons := congrArg Panel.buttons hPanel
  exact ⟨hSwitches, hButtons⟩

theorem worked_store (m : Memory) (a : Word) (v : Byte) :
    Panel.Worked [] [] m.panel (m.store a v).1.panel := by
  unfold store
  split
  · next input offset hInput => cases input <;> exact ⟨rfl, rfl⟩
  · exact .refl

theorem worked_storeAll (m : Memory) (ss : List (Word × Byte)) :
    Panel.Worked [] [] m.panel (m.storeAll ss).1.panel := by
  induction ss generalizing m with
  | nil => exact .refl
  | cons s ss ih => exact (worked_store m s.1 s.2).trans (ih _)

theorem worked_resetInputs (p : Panel) (bs : List Block) :
    Panel.Worked [] [] p (resetInputs p bs) := by
  induction bs generalizing p with
  | nil => exact .refl
  | cons b bs ih =>
    have hBlock : Panel.Worked [] [] p (resetInputs p [b]) := by
      obtain ⟨name, start, bytes | ⟨d, n⟩ | ⟨_ | _ | _, n⟩⟩ := b <;> exact ⟨rfl, rfl⟩
    exact hBlock.trans (ih _)

def Op.toggles : Op → List Nat
  | .toggleSwitch i => [i]
  | _ => []

def Op.presses : Op → List (Nat × Bool)
  | .setButton i pressed => [(i, pressed)]
  | _ => []

theorem worked_apply (m : Memory) (o : Op) :
    Panel.Worked o.toggles o.presses m.panel (m.apply o).1.panel := by
  cases o with
  | read width a =>
    rw [apply, read]
    cases m.checkMapped (accessed a width.bytes) with
    | ok u => exact worked_fetchAll m _
    | error e => exact .refl
  | write width a v =>
    rw [apply, write]
    cases m.checkWritable (accessed a width.bytes) with
    | ok u => exact worked_storeAll m _
    | error e => exact .refl
  | loadImage start image =>
    rw [apply, loadImage]
    cases m.checkImage start image.size <;> exact .refl
  | reset => exact worked_resetInputs m.panel m.blocks
  | addRam name start length =>
    rw [apply, addRam]
    cases m.checkRange start length <;> exact .refl
  | addDevice name start length d =>
    rw [apply, addDevice]
    cases m.checkRange start length <;> exact .refl
  | notifyWrites on => exact .refl
  | toggleSwitch i =>
    rw [apply, toggleSwitch?]
    constructor
    · rw [Op.toggles, Switches.flipped, List.foldl_cons, List.foldl_nil]
      cases m.panel.switches.toggle? i <;> rfl
    · cases m.panel.switches.toggle? i <;> rfl
  | setButton i pressed =>
    rw [apply, setButton?]
    constructor
    · cases m.panel.buttons.set? i pressed <;> rfl
    · rw [Op.presses, Buttons.worked, List.foldl_cons, List.foldl_nil]
      cases m.panel.buttons.set? i pressed <;> rfl
  | feedSerial c => exact ⟨rfl, rfl⟩

end Memory

namespace Machine

variable {m m₀ : Machine}

def Act.toggles : Act → List Nat
  | .op (.memory o) => o.toggles
  | _ => []

def Act.presses : Act → List (Nat × Bool)
  | .op (.memory o) => o.presses
  | _ => []

theorem worked_steps :
    PreservedBySteps fun m => Panel.Worked [] [] m₀.memory.panel m.memory.panel where
  touch _ _ hm := hm
  store _ _ _ hm := hm
  fetchAll _ _ hm := hm.trans (Memory.worked_fetchAll _ _)
  storeAll _ _ hm := hm.trans (Memory.worked_storeAll _ _)
  pc _ _ _ hm := hm
  resetAccess _ hm := hm
  halt _ hm := hm
  advance _ hm := hm
  restorePc _ _ _ hm' := hm'

theorem worked_reset (m : Machine) :
    Panel.Worked [] [] m.memory.panel (left m.reset).memory.panel := by
  have hReset := Memory.worked_resetInputs m.memory.panel m.memory.blocks
  unfold reset
  simp only
  split
  · exact hReset
  split
  · exact hReset
  · exact hReset

theorem worked_loadAt (p : Program) (entry : Word) (m : Machine) :
    Panel.Worked [] [] m.memory.panel (left (loadAt p entry m)).memory.panel := by
  unfold loadAt
  split
  · exact .refl
  · exact worked_reset { m with snapshot := some ⟨p.image, p.start, entry⟩ }

/-- Whatever is done to the machine, calls work switches and buttons and nothing else does. -/
theorem worked_act (m : Machine) (a : Act) :
    Panel.Worked a.toggles a.presses m.memory.panel (m.act a).memory.panel := by
  cases a with
  | runWithLimit limit => exact worked_steps.step.runWithLimit limit m .refl
  | op o =>
    cases o with
    | load p entry => exact worked_loadAt p entry m
    | reset => exact worked_reset m
    | memory o => exact Memory.worked_apply m.memory o
    | _ =>
      apply apply_of_parts worked_steps.toPreservedByParts worked_steps.step .refl
      intro hOther
      first | exact .refl | cases hOther

theorem worked_after (m : Machine) (acts : List Act) :
    Panel.Worked (acts.flatMap Act.toggles) (acts.flatMap Act.presses) m.memory.panel
      (m.after acts).memory.panel := by
  induction acts generalizing m with
  | nil => exact .refl
  | cons a acts ih => exact (worked_act m a).trans (ih _)

end Machine

/-! ### The bytes of a word -/

/-- The value of `n` bytes of a word from an offset on, as they lie in memory. -/
def Word.part (w : Word) (offset n : Nat) : Word :=
  Word.ofBytes (((littleEndian 4 w).drop offset).take n)

theorem take_drop_littleEndian (w : Word) {offset n : Nat} (h : offset + n ≤ 4) :
    ((littleEndian 4 w).drop offset).take n =
      (List.range n).map fun i => byteAt w (offset + i) := by
  apply List.ext_getElem
  · simp
    omega
  · intro i hi hi'
    simp [littleEndian]

/-- A byte of a word that begins with four bits and is zero above them. -/
theorem byteAt_setWidth (state : BitVec 4) (k : Nat) :
    byteAt (state.setWidth 32) k = if k = 0 then state.setWidth 8 else 0 := by
  apply BitVec.eq_of_getLsbD_eq
  intro i hi
  rw [byteAt, BitVec.getLsbD_extractLsb', BitVec.getLsbD_setWidth]
  split
  · next hk =>
    subst hk
    simp [hi]
    omega
  · next hk =>
    rw [BitVec.getLsbD_of_ge state _ (by omega)]
    simp

namespace Device

/-- The device answers at its first four offsets with the bytes of a word, and keeps quiet about
reads. -/
structure ShowsWord (d : Device) (w : Word) : Prop where
  peek : ∀ k < 4, d.peek k = byteAt w k
  quiet : ¬ d.CharacterWaits
  readOnly : d.writable = false

theorem showsWord_switches (d : Switches) : (Device.switches d).ShowsWord d.word where
  peek _ hk := congrArg (byteAt d.word) (Nat.mod_eq_of_lt hk)
  quiet := id
  readOnly := rfl

theorem showsWord_buttons (d : Buttons) : (Device.buttons d).ShowsWord d.word where
  peek k _ := (byteAt_setWidth d.state k).symm
  quiet := id
  readOnly := rfl

end Device

namespace Memory

theorem accessed_add (start : Word) (offset n : Nat) :
    accessed (start + BitVec.ofNat 32 offset) n =
      (List.range n).map fun i => start + BitVec.ofNat 32 (offset + i) := by
  apply List.map_congr_left
  intro i _
  rw [BitVec.add_assoc, BitVec.ofNat_add]

/-- The block answers for four addresses from `start` on, with a device that shows the word. -/
structure Shown (m : Memory) (start w : Word) (b : Block) (d : Device) : Prop where
  start_eq : b.start = start
  block : ∀ k < 4, m.block? (start + BitVec.ofNat 32 k) = some b
  device : b.device? m.panel = some d
  word : d.ShowsWord w

namespace Shown

variable {m : Memory} {start w : Word} {b : Block} {d : Device} {k : Nat}

theorem fst_fetch (h : m.Shown start w b d) (hk : k < 4) :
    (m.fetch (start + BitVec.ofNat 32 k)).1 = byteAt w k := by
  have hOffset : b.offset (start + BitVec.ofNat 32 k) = k := by
    rw [Block.offset, h.start_eq, BitVec.add_comm, BitVec.add_sub_cancel, BitVec.toNat_ofNat]
    exact Nat.mod_eq_of_lt (by omega)
  rw [fetch_of_device (h.block k hk) h.device, hOffset, ← Device.peek_eq_read, h.word.peek k hk]

theorem not_characterWaits (h : m.Shown start w b d) (hk : k < 4) :
    ¬ m.CharacterWaits (start + BitVec.ofNat 32 k) := by
  rintro ⟨c, d', hBlock, hDevice, hWaits⟩
  cases (h.block k hk).symm.trans hBlock
  cases h.device.symm.trans hDevice
  exact h.word.quiet hWaits

theorem storeError?_eq (h : m.Shown start w b d) (hk : k < 4) :
    m.storeError? (start + BitVec.ofNat 32 k) = some .readOnly := by
  simp only [storeError?, h.block k hk, h.device, h.word.readOnly, Bool.false_eq_true, if_false]

section Access

variable {offset n : Nat}

theorem exists_of_mem_accessed (hFits : offset + n ≤ 4) {a : Word}
    (ha : a ∈ accessed (start + BitVec.ofNat 32 offset) n) :
    ∃ k < 4, a = start + BitVec.ofNat 32 k := by
  rw [accessed_add] at ha
  obtain ⟨i, hi, rfl⟩ := List.mem_map.mp ha
  have hLt := List.mem_range.mp hi
  exact ⟨offset + i, by omega, rfl⟩

theorem map_fetch (h : m.Shown start w b d) (hFits : offset + n ≤ 4) :
    ((accessed (start + BitVec.ofNat 32 offset) n).map fun a => (m.fetch a).1) =
      ((littleEndian 4 w).drop offset).take n := by
  rw [accessed_add, take_drop_littleEndian w hFits, List.map_map]
  apply List.map_congr_left
  intro i hi
  have hLt := List.mem_range.mp hi
  exact h.fst_fetch (by omega)

theorem checkMapped_eq (h : m.Shown start w b d) (hFits : offset + n ≤ 4) :
    m.checkMapped (accessed (start + BitVec.ofNat 32 offset) n) = .ok () := by
  apply checkMapped_eq_ok
  intro a ha
  obtain ⟨k, hk, rfl⟩ := exists_of_mem_accessed hFits ha
  rw [isMapped_eq_isSome, h.block k hk, Option.isSome_some]

end Access

variable {width : Width} {offset : Nat}

theorem peek_eq (h : m.Shown start w b d) (hFits : offset + width.bytes ≤ 4) :
    m.peek width (start + BitVec.ofNat 32 offset) = .ok (w.part offset width.bytes) := by
  rw [Memory.peek_eq, h.checkMapped_eq hFits, h.map_fetch hFits]
  rfl

theorem read_eq (h : m.Shown start w b d) (hFits : offset + width.bytes ≤ 4) :
    m.read width (start + BitVec.ofNat 32 offset) = .ok (w.part offset width.bytes, m) := by
  have hQuiet : ∀ a ∈ accessed (start + BitVec.ofNat 32 offset) width.bytes,
      ¬ m.CharacterWaits a := by
    intro a ha
    obtain ⟨k, hk, rfl⟩ := exists_of_mem_accessed hFits ha
    exact h.not_characterWaits hk
  have hFetch : m.fetchAll (accessed (start + BitVec.ofNat 32 offset) width.bytes) =
      (((littleEndian 4 w).drop offset).take width.bytes, m) := by
    rw [← h.map_fetch hFits, ← fst_fetchAll_of_not_characterWaits hQuiet]
    exact Prod.ext rfl (fetchAll_of_not_characterWaits hQuiet)
  rw [read, h.checkMapped_eq hFits, hFetch]
  rfl

end Shown

/-! ### Stores -/

variable {m : Memory} {a : Word}

theorem readOnly_or_unmapped_of_storeError? {kind : MemoryErrorKind}
    (h : m.storeError? a = some kind) :
    kind = .readOnly ∨ kind = .unmapped ∧ m.isMapped a = false := by
  rw [isMapped_eq_isSome]
  cases hBlock : m.block? a with
  | none =>
    simp only [storeError?, hBlock] at h
    cases h
    exact .inr ⟨rfl, rfl⟩
  | some b =>
    simp only [storeError?, hBlock] at h
    split at h
    · split at h <;> cases h
      exact .inl rfl
    · cases h

/-- The error says that something is read-only, or else that one of the addresses is unmapped. -/
def Refusal (m : Memory) (before : List Word) (e : MemoryError) : Prop :=
  e.kind = .readOnly ∨ e.kind = .unmapped ∧ e.address ∈ before ∧ m.isMapped e.address = false

/-- A store that comes to a read-only address fails there, or before. -/
theorem exists_refusal (h : m.storeError? a = some .readOnly) (before after : List Word) :
    ∃ e, m.Refusal before e ∧ m.checkWritable (before ++ a :: after) = .error e := by
  induction before with
  | nil =>
    refine ⟨⟨a, .readOnly⟩, .inl rfl, ?_⟩
    rw [List.nil_append, checkWritable, h]
  | cons x before ih =>
    rw [List.cons_append, checkWritable]
    cases hKind : m.storeError? x with
    | none =>
      obtain ⟨e, hRefusal, hCheck⟩ := ih
      refine ⟨e, hRefusal.imp_right ?_, hCheck⟩
      rintro ⟨hUnmapped, hMem, hFree⟩
      exact ⟨hUnmapped, List.mem_cons_of_mem x hMem, hFree⟩
    | some kind =>
      refine ⟨⟨x, kind⟩, (readOnly_or_unmapped_of_storeError? hKind).imp_right ?_, rfl⟩
      rintro ⟨hUnmapped, hFree⟩
      exact ⟨hUnmapped, List.mem_cons_self, hFree⟩

end Memory

/-! ### The board -/

namespace Machine

variable {m : Machine}

theorem Reachable.block?_input (h : Reachable m) {name : Text} {start : Word} {i : Input}
    {k n : Nat} (hb : ⟨name, start, .input i n⟩ ∈ Memory.standard.blocks) (hk : k < n)
    (hn : n ≤ 2 ^ 32) :
    m.memory.block? (start + BitVec.ofNat 32 k) = some ⟨name, start, .input i n⟩ := by
  apply h.wellFormed.block?_eq
  · obtain ⟨c, hc, hReset⟩ := List.mem_map.mp (h.board.subset hb)
    obtain ⟨name', start', bytes | ⟨d, n'⟩ | ⟨i', n'⟩⟩ := c <;> cases hReset
    exact hc
  · rw [Block.contains, Block.offset, decide_eq_true_iff, BitVec.add_comm, BitVec.add_sub_cancel,
      BitVec.toNat_ofNat, Nat.mod_eq_of_lt (by omega)]
    exact hk

theorem Reachable.shown_switches (h : Reachable m) :
    m.memory.Shown Board.switchesStart m.memory.panel.switches.word
      ⟨"switches".toList, Board.switchesStart, .input .switches Board.deviceSize⟩
      (.switches m.memory.panel.switches) where
  start_eq := rfl
  block _ hk := h.block?_input (by simp [Memory.standard]) hk (by decide)
  device := rfl
  word := Device.showsWord_switches _

theorem Reachable.shown_buttons (h : Reachable m) :
    m.memory.Shown Board.buttonsStart m.memory.panel.buttons.word
      ⟨"buttons".toList, Board.buttonsStart, .input .buttons Board.deviceSize⟩
      (.buttons m.memory.panel.buttons) where
  start_eq := rfl
  block _ hk := h.block?_input (by simp [Memory.standard]) hk (by decide)
  device := rfl
  word := Device.showsWord_buttons _

/-- Every access inside the four bytes from `start` on gives what is there of the word, and moves
nothing in memory. -/
structure ShowsWord (m : Machine) (start w : Word) : Prop where
  read : ∀ (width : Width) (offset : Nat), offset + width.bytes ≤ 4 →
    m.memory.read width (start + BitVec.ofNat 32 offset) =
      .ok (w.part offset width.bytes, m.memory)
  peek : ∀ (width : Width) (offset : Nat), offset + width.bytes ≤ 4 →
    m.memory.peek width (start + BitVec.ofNat 32 offset) = .ok (w.part offset width.bytes)
  /-- Programs, with a load. -/
  load : ∀ (kind : LoadKind) (io : Bool) (f : ImmFields) (offset : Nat),
    offset + kind.width.bytes ≤ 4 →
    m.registers.isEnabled f.a.toNat = true → m.registers.isEnabled f.b.toNat = true →
    m.registers.peek f.a.toNat + f.signed = start + BitVec.ofNat 32 offset →
    ∃ v, kind.Extends (w.part offset kind.width.bytes) v ∧
      m.Leaves (.imm (.load kind io) f) m.memory f.b v

theorem showsWord_of_shown {start w : Word} {b : Block} {d : Device}
    (h : m.memory.Shown start w b d) : m.ShowsWord start w where
  read _ _ hFits := h.read_eq hFits
  peek _ _ hFits := h.peek_eq hFits
  load kind io f offset hFits ha hb hAddress := by
    obtain ⟨address, hSum, hUses⟩ := uses_load ha hb kind io
    obtain rfl : address = start + BitVec.ofNat 32 offset := by
      rw [← hAddress]
      apply BitVec.eq_of_toNat_eq
      exact_mod_cast hSum.trans (toNat_add_signed _ f).symm
    simp only [h.read_eq hFits] at hUses
    exact hUses.2

/-- A store that touches the address fails and changes nothing, whoever tries: something there is
read-only, or a byte before the address is unmapped. -/
def TurnsAway (m : Machine) (a : Word) : Prop :=
  ∀ (width : Width) (address : Word) (before after : List Word),
    Memory.accessed address width.bytes = before ++ a :: after →
      ∃ e, m.memory.Refusal before e ∧
        (∀ v, m.memory.write width address v = .error e ∧
          m.apply (.memory (.write width address v)) = m ∧
          m.apply (.storeMemory width address v) = m) ∧
        ∀ (io : Bool) (f : ImmFields),
          m.registers.isEnabled f.a.toNat = true → m.registers.isEnabled f.b.toNat = true →
          m.registers.peek f.a.toNat + f.signed = address →
          m.FaultsAt (.imm (.store width io) f) e

theorem turnsAway_of_shown {start w : Word} {b : Block} {d : Device}
    (h : m.memory.Shown start w b d) {a : Word} (ha : a ∈ Memory.accessed start 4) :
    m.TurnsAway a := by
  intro width address before after hSplit
  obtain ⟨k, hk, rfl⟩ := List.mem_map.mp ha
  obtain ⟨e, hRefusal, hCheck⟩ :=
    Memory.exists_refusal (h.storeError?_eq (List.mem_range.mp hk)) before after
  have hWrite : ∀ v, m.memory.write width address v = .error e := by
    intro v
    rw [Memory.write, hSplit, hCheck]
  refine ⟨e, hRefusal, fun v => ⟨hWrite v, ?_, ?_⟩, fun io f ha hb hAddress => ?_⟩
  · rw [apply, Memory.apply, hWrite]
    rfl
  · rw [apply, storeMemory_eq, hWrite]
    rfl
  · apply faultsAt_of_execute rfl
    rw [execute_store ha hb width io, storeMemory_eq, hAddress]
    simp only [hWrite]
    rfl

/-- The calls there were tell where switches and buttons are. Calls for others are refused and
change nothing. At their addresses every access reads the words they show, and every store is
turned away. -/
structure DrivenByPanel (acts : List Act) (m : Machine) : Prop where
  switch_iff : ∀ i, m.memory.panel.switches.word.getLsbD i = true ↔
    i < 4 ∧ Odd ((acts.flatMap Act.toggles).count i)
  /-- The last call for the button pressed it. -/
  button_iff : ∀ i, m.memory.panel.buttons.word.getLsbD i = true ↔
    i < 4 ∧ (acts.flatMap Act.presses).reverse.lookup i = some true
  refused_iff : ∀ i, (m.memory.toggleSwitch? i = none ↔ 4 ≤ i) ∧
    ∀ pressed, m.memory.setButton? i pressed = none ↔ 4 ≤ i
  kept : ∀ i, 4 ≤ i → m.apply (.memory (.toggleSwitch i)) = m ∧
    ∀ pressed, m.apply (.memory (.setButton i pressed)) = m
  switches : m.ShowsWord Board.switchesStart m.memory.panel.switches.word
  buttons : m.ShowsWord Board.buttonsStart m.memory.panel.buttons.word
  turnsAway : ∀ a ∈ Memory.accessed Board.switchesStart 4 ++ Memory.accessed Board.buttonsStart 4,
    m.TurnsAway a

/-- In every session, whatever the program and the host do in between, and across loads and resets,
a switch is on after an odd number of calls for it and a button is down if the last call for it
pressed it; programs and host read just that, and cannot change it. -/
theorem inputs_driven_by_panel (acts : List Act) : DrivenByPanel acts (new.after acts) := by
  have hWorked := worked_after new acts
  have hReachable : Reachable (new.after acts) := leads_after new acts
  generalize new.after acts = m at hWorked hReachable
  have hToggle : ∀ i, m.memory.toggleSwitch? i = none ↔ 4 ≤ i := fun i =>
    Option.map_eq_none_iff.trans Switches.toggle?_eq_none_iff
  have hSet : ∀ i pressed, m.memory.setButton? i pressed = none ↔ 4 ≤ i := fun i pressed =>
    Option.map_eq_none_iff.trans Buttons.set?_eq_none_iff
  refine ⟨fun i => ?_, fun i => ?_, fun i => ⟨hToggle i, hSet i⟩,
    fun i hi => ⟨?_, fun pressed => ?_⟩, showsWord_of_shown hReachable.shown_switches,
    showsWord_of_shown hReachable.shown_buttons, fun a ha => ?_⟩
  · rw [Switches.word, BitVec.getLsbD_setWidth, hWorked.switches, Switches.getLsbD_flipped]
    have hNew : new.memory.panel.switches.state.getLsbD i = false := BitVec.getLsbD_zero
    rw [hNew]
    simp
    omega
  · by_cases hi : i < 4
    · rw [Buttons.word, BitVec.getLsbD_setWidth, hWorked.buttons, Buttons.getLsbD_worked _ _ hi]
      have hNew : new.memory.panel.buttons.state.getLsbD i = false := BitVec.getLsbD_zero
      rw [hNew]
      cases (acts.flatMap Act.presses).reverse.lookup i <;> simp [hi]
      omega
    · rw [Buttons.word, BitVec.getLsbD_setWidth, BitVec.getLsbD_of_ge _ i (Nat.not_lt.mp hi)]
      simp [hi]
  · rw [apply, Memory.apply, (hToggle i).mpr hi]
    rfl
  · rw [apply, Memory.apply, (hSet i pressed).mpr hi]
    rfl
  · rcases List.mem_append.mp ha with ha | ha
    · exact turnsAway_of_shown hReachable.shown_switches ha
    · exact turnsAway_of_shown hReachable.shown_buttons ha

/-- Switch 0 is flipped twice, switch 3 once, and button 1 is held down. -/
def tinkering : List Act :=
  [.op (.memory (.toggleSwitch 0)), .op (.memory (.toggleSwitch 3)),
    .op (.memory (.toggleSwitch 7)), .op (.memory (.setButton 1 true)),
    .op (.memory (.write .word Board.switchesStart 7)), .op (.memory (.toggleSwitch 0)), .op .reset]

theorem inputs_driven_by_panel_tinkering :
    ∃ m, m = new.after tinkering ∧
      m.memory.read .word Board.switchesStart = .ok (8, m.memory) ∧
      m.memory.peek .byte Board.buttonsStart = .ok 2 ∧ m.memory.toggleSwitch? 7 = none ∧
      ∃ e, m.memory.write .half (Board.switchesStart + 2) 0 = .error e ∧ e.kind = .readOnly := by
  have hDriven := inputs_driven_by_panel tinkering
  refine ⟨_, rfl, ?_⟩
  generalize new.after tinkering = m at hDriven
  have hSwitches : m.memory.panel.switches.word = 8 := by
    apply BitVec.eq_of_getLsbD_eq
    intro i hi
    rw [Bool.eq_iff_iff, hDriven.switch_iff]
    revert i
    decide
  have hButtons : m.memory.panel.buttons.word = 2 := by
    apply BitVec.eq_of_getLsbD_eq
    intro i hi
    rw [Bool.eq_iff_iff, hDriven.button_iff]
    revert i
    decide
  have hRead := hDriven.switches.read .word 0 (by decide)
  have hPeek := hDriven.buttons.peek .byte 0 (by decide)
  rw [hSwitches] at hRead
  rw [hButtons] at hPeek
  obtain ⟨e, hKind | ⟨-, hNone, -⟩, hFails, -⟩ :=
    hDriven.turnsAway (Board.switchesStart + 2) (by decide) .half (Board.switchesStart + 2) [] _ rfl
  · exact ⟨hRead, hPeek, ((hDriven.refused_iff 7).1).mpr (by decide), e, (hFails 0).1, hKind⟩
  · cases hNone

end Machine

end NiosBoard
