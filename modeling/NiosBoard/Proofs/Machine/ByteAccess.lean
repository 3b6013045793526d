import NiosBoard.Proofs.Machine.Places

/-! # One byte at a time

An access to an address concerns the first block that contains it. Reading or storing a byte there
either changes a byte of RAM or puts a device back as the access left it, and nothing else.
-/

namespace NiosBoard

namespace Block

variable (b : Block)

theorem contains_reset (a : Word) : b.reset.contains a = b.contains a := by
  show b.reset.place.contains a = b.place.contains a
  rw [Memory.place_reset]

theorem offset_reset (a : Word) : b.reset.offset a = b.offset a := by
  show (a - b.reset.place.start).toNat = (a - b.place.start).toNat
  rw [Memory.place_reset]

theorem exists_bytes_of_device? {panel : Panel} (h : b.device? panel = none) :
    ∃ bytes, b.backing = .ram bytes := by
  obtain ⟨name, start, bytes | ⟨d, n⟩ | ⟨i, n⟩⟩ := b
  · exact ⟨bytes, rfl⟩
  · cases h
  · cases h

end Block

namespace Memory

variable {m : Memory} {a : Word} {b : Block}

theorem updateFirst_congr {f g : Block → Block} {bs : List Block}
    (h : ∀ b, bs.find? (·.contains a) = some b → f b = g b) :
    updateFirst a f bs = updateFirst a g bs := by
  induction bs with
  | nil => rfl
  | cons b bs ih =>
    rw [updateFirst, updateFirst]
    cases hContains : b.contains a with
    | true => simp only [if_true, h b (List.find?_cons_of_pos hContains)]
    | false =>
      have hRest := ih fun c hc => h c (by rw [List.find?_cons, hContains]; exact hc)
      simp only [Bool.false_eq_true, if_false, hRest]

theorem updateFirst_eq_self {f : Block → Block} {bs : List Block}
    (h : ∀ b, bs.find? (·.contains a) = some b → f b = b) : updateFirst a f bs = bs := by
  have hMap : (updateFirst a f bs).map id = bs.map id := map_updateFirst h
  rwa [List.map_id, List.map_id] at hMap

theorem getElem?_updateFirst (a : Word) (f : Block → Block) (bs : List Block) (k : Nat) :
    (updateFirst a f bs)[k]? =
      bs[k]?.map fun b => if bs.findIdx (·.contains a) = k then f b else b := by
  induction bs generalizing k with
  | nil => rfl
  | cons b bs ih =>
    rw [updateFirst, List.findIdx_cons]
    cases b.contains a with
    | true => cases k <;> simp
    | false => cases k <;> simp [ih]

theorem find?_contains_map {g : Block → Block} {bs : List Block}
    (hg : ∀ b : Block, (g b).contains a = b.contains a) :
    (bs.map g).find? (·.contains a) = (bs.find? (·.contains a)).map g := by
  have hContains : (fun b : Block => b.contains a) ∘ g = fun b => b.contains a := funext hg
  rw [List.find?_map, hContains]

/-- The number of the block that answers for an address. -/
def index (m : Memory) (a : Word) : Nat := m.blocks.findIdx (·.contains a)

theorem getElem?_index (m : Memory) (a : Word) : m.blocks[m.index a]? = m.block? a :=
  List.find?_eq_getElem?_findIdx.symm

/-- Which block answers depends on where the blocks are, not on what they hold. -/
theorem index_eq_blanks (m : Memory) (a : Word) :
    m.index a = m.blanks.findIdx (·.contains a) := by
  have hContains : (fun b : Block => b.contains a) ∘ Block.reset = fun b => b.contains a :=
    funext fun b => b.contains_reset a
  rw [blanks, List.findIdx_map, hContains]
  rfl

theorem storeIn_eq (notify : Bool) (a : Word) (v : Byte) (bs : List Block) :
    storeIn notify a v bs =
      (updateFirst a (fun b => (b.store notify a v).1) bs,
        ((bs.find? (·.contains a)).map fun b => (b.store notify a v).2).getD []) := by
  induction bs with
  | nil => rfl
  | cons b bs ih =>
    rw [storeIn, updateFirst, List.find?_cons]
    cases b.contains a with
    | true => rfl
    | false =>
      simp only [ih]
      rfl

/-! ### RAM -/

/-- A store to RAM changes the byte and reports it if it is to. -/
theorem store_of_ram {bytes : Array Byte} (hBlock : m.block? a = some b)
    (hBytes : b.backing = .ram bytes) (v : Byte) :
    m.store a v =
      ({ m with
          blocks := updateFirst a
            (fun b => { b with backing := .ram (bytes.setIfInBounds (b.offset a) v) }) m.blocks },
        if m.notifyWrites then [.memory a v] else []) := by
  have hInput : m.input? a = none := by simp only [input?, hBlock, hBytes]
  have hStore : b.store m.notifyWrites a v =
      ({ b with backing := .ram (bytes.setIfInBounds (b.offset a) v) },
        if m.notifyWrites then [.memory a v] else []) := by
    obtain ⟨name, start, backing⟩ := b
    cases hBytes
    rfl
  have hUpdate : updateFirst a (fun b => (b.store m.notifyWrites a v).1) m.blocks =
      updateFirst a (fun b => { b with backing := .ram (bytes.setIfInBounds (b.offset a) v) })
        m.blocks := by
    apply updateFirst_congr
    intro c hc
    cases hBlock.symm.trans hc
    rw [hStore]
  have hFind : m.blocks.find? (·.contains a) = some b := hBlock
  rw [store, hInput]
  simp only [storeIn_eq, hUpdate, hFind, Option.map_some, Option.getD_some, hStore]

/-! ### Devices -/

theorem fetch_of_device {d : Device} (hBlock : m.block? a = some b)
    (hDevice : b.device? m.panel = some d) :
    m.fetch a = ((d.read (b.offset a)).1, m.putDevice a b (d.read (b.offset a)).2) := by
  simp only [fetch, hBlock, hDevice]

theorem store_of_device {d : Device} (hBlock : m.block? a = some b)
    (hDevice : b.device? m.panel = some d) (v : Byte) :
    m.store a v =
      (m.putDevice a b (d.write (b.offset a) v).1, (d.write (b.offset a) v).2) := by
  obtain ⟨name, start, bytes | ⟨d₁, n⟩ | ⟨i, n⟩⟩ := b
  · cases hDevice
  · cases hDevice
    have hInput : m.input? a = none := by simp only [input?, hBlock]
    have hUpdate : updateFirst a (fun b => (b.store m.notifyWrites a v).1) m.blocks =
        updateFirst a (fun b => { b with backing := .device (d.write (a - start).toNat v).1 n })
          m.blocks := by
      apply updateFirst_congr
      intro c hc
      cases hBlock.symm.trans hc
      rfl
    have hFind : m.blocks.find? (·.contains a) = some ⟨name, start, .device d n⟩ := hBlock
    rw [store, hInput]
    simp only [storeIn_eq, hUpdate, hFind, Option.map_some, Option.getD_some]
    rfl
  · cases hDevice
    simp only [store, input?, hBlock]
    rfl

theorem store_of_block?_eq_none (hBlock : m.block? a = none) (v : Byte) :
    m.store a v = (m, []) := by
  have hInput : m.input? a = none := by simp only [input?, hBlock]
  have hFind : m.blocks.find? (·.contains a) = none := hBlock
  have hSame : updateFirst a (fun b => (b.store m.notifyWrites a v).1) m.blocks = m.blocks :=
    updateFirst_eq_self fun b hb => nomatch hFind.symm.trans hb
  rw [store, hInput]
  simp only [storeIn_eq, hFind, hSame, Option.map_none, Option.getD_none]

end Memory

end NiosBoard
