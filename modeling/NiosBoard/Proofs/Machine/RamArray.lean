import NiosBoard.Proofs.Except
import NiosBoard.Proofs.Machine.View
import NiosBoard.Proofs.Machine.WideAccess
import NiosBoard.Proofs.Word

/-! # RAM as one array

However many blocks it is in, RAM is one array of bytes, addressed by words. A store overwrites one
element, a write as many as it is wide, in the order of their significance; everything else stands
as it stood. A read puts together what the array holds.
-/

namespace NiosBoard

/-- An offset from an address is found again. -/
theorem toNat_add_ofNat_sub (a : Word) {i : Nat} (hi : i < 2 ^ 32) :
    (a + BitVec.ofNat 32 i - a).toNat = i := by
  rw [BitVec.add_comm, BitVec.add_sub_cancel, BitVec.toNat_ofNat, Nat.mod_eq_of_lt hi]

theorem add_ofNat_toNat_sub (a x : Word) : a + BitVec.ofNat 32 (x - a).toNat = x := by
  rw [BitVec.ofNat_toNat, BitVec.setWidth_eq, BitVec.add_comm, BitVec.sub_add_cancel]

namespace Block

/-- The block with some bytes, if it is RAM, overwritten: `f` says at which addresses and with what. -/
def overwrite (f : Word → Option Byte) (b : Block) : Block :=
  match b.backing with
  | .ram bytes =>
    { b with backing := .ram (bytes.mapIdx fun i x => (f (b.start + BitVec.ofNat 32 i)).getD x) }
  | _ => b

variable (f g : Word → Option Byte) (b : Block)

theorem reset_overwrite : (b.overwrite f).reset = b.reset := by
  obtain ⟨name, start, bytes | ⟨d, n⟩ | ⟨i, n⟩⟩ := b
  · simp [overwrite, reset]
  · rfl
  · rfl

theorem contains_overwrite (a : Word) : (b.overwrite f).contains a = b.contains a := by
  rw [← contains_reset, reset_overwrite, contains_reset]

theorem offset_overwrite (a : Word) : (b.overwrite f).offset a = b.offset a := by
  rw [← offset_reset, reset_overwrite, offset_reset]

theorem overwrite_of_isDevice (h : b.isDevice = true) : b.overwrite f = b := by
  obtain ⟨name, start, bytes | ⟨d, n⟩ | ⟨i, n⟩⟩ := b
  · cases h
  · rfl
  · rfl

theorem overwrite_overwrite :
    (b.overwrite f).overwrite g = b.overwrite fun a => (g a).or (f a) := by
  obtain ⟨name, start, bytes | ⟨d, n⟩ | ⟨i, n⟩⟩ := b
  · simp only [overwrite, Array.mapIdx_mapIdx]
    congr 3
    funext i x
    cases g (start + BitVec.ofNat 32 i) <;> rfl
  · rfl
  · rfl

/-- A block that has none of the addresses is left as it is. -/
theorem overwrite_eq_self (h : ∀ a, b.contains a = true → f a = none) (hLength : b.length ≤ 2 ^ 32) :
    b.overwrite f = b := by
  obtain ⟨name, start, bytes | ⟨d, n⟩ | ⟨i, n⟩⟩ := b
  · have hSame : (bytes.mapIdx fun i x => (f (start + BitVec.ofNat 32 i)).getD x) = bytes := by
      apply Array.ext
      · exact Array.size_mapIdx
      · intro i hi hi'
        have hOffset : offset ⟨name, start, .ram bytes⟩ (start + BitVec.ofNat 32 i) = i :=
          toNat_add_ofNat_sub start (Nat.lt_of_lt_of_le hi' hLength)
        have hNone := h (start + BitVec.ofNat 32 i) (by
          rw [contains, hOffset]
          exact decide_eq_true hi')
        rw [Array.getElem_mapIdx, hNone]
        rfl
    rw [overwrite]
    simp only [hSame]
  · rfl
  · rfl

end Block

namespace Memory

variable {m m' : Memory} {a : Word} {b : Block}

/-- The memory with the bytes of RAM overwritten that `f` gives. -/
def overwrite (m : Memory) (f : Word → Option Byte) : Memory :=
  { m with blocks := m.blocks.map (·.overwrite f) }

theorem overwrite_overwrite (m : Memory) (f g : Word → Option Byte) :
    (m.overwrite f).overwrite g = m.overwrite fun a => (g a).or (f a) := by
  simp only [overwrite, List.map_map, Memory.mk.injEq, and_true]
  exact List.map_congr_left fun b _ => b.overwrite_overwrite f g

theorem blanks_overwrite (m : Memory) (f : Word → Option Byte) : (m.overwrite f).blanks = m.blanks := by
  simp only [blanks, overwrite, List.map_map]
  exact List.map_congr_left fun b _ => b.reset_overwrite f

theorem block?_overwrite (m : Memory) (f : Word → Option Byte) (a : Word) :
    (m.overwrite f).block? a = (m.block? a).map (·.overwrite f) :=
  find?_contains_map fun b => b.contains_overwrite f a

theorem ram?_overwrite (m : Memory) (f : Word → Option Byte) (a : Word) :
    (m.overwrite f).ram? a = (m.ram? a).map fun x => (f a).getD x := by
  rw [ram?, ram?, block?_overwrite]
  cases hBlock : m.block? a with
  | none => rfl
  | some b =>
    have hInside := contains_of_block? hBlock
    have hAddress : b.start + BitVec.ofNat 32 (b.offset a) = a := add_ofNat_toNat_sub b.start a
    simp only [Option.map_some, Option.bind_some, Block.offset_overwrite]
    obtain ⟨name, start, bytes | ⟨d, n⟩ | ⟨i, n⟩⟩ := b
    · have hBound : Block.offset ⟨name, start, .ram bytes⟩ a < bytes.size := of_decide_eq_true hInside
      simp only [Block.overwrite, Block.bytes?, Option.map_some, Array.getD_eq_getD_getElem?,
        Array.getElem?_mapIdx, Array.getElem?_eq_getElem hBound, Option.getD_some, hAddress]
    · rfl
    · rfl

/-! ### One store -/

/-- A single byte, at one address. -/
def byteOnly (a : Word) (v : Byte) (x : Word) : Option Byte := if x = a then some v else none

theorem updateFirst_eq_map {f g : Block → Block} {bs : List Block}
    (hOne : bs.Pairwise fun b c => ¬ (b.contains a = true ∧ c.contains a = true))
    (hInside : ∀ b ∈ bs, b.contains a = true → f b = g b)
    (hOutside : ∀ b ∈ bs, b.contains a = false → g b = b) : updateFirst a f bs = bs.map g := by
  induction bs with
  | nil => rfl
  | cons b bs ih =>
    rw [List.pairwise_cons] at hOne
    rw [List.forall_mem_cons] at hInside hOutside
    rw [updateFirst, List.map_cons]
    split
    · next hb =>
      have hRest : bs.map g = bs := by
        refine (List.map_congr_left fun c hc => ?_).trans (List.map_id bs)
        exact hOutside.2 c hc (Bool.eq_false_iff.mpr fun hContains => hOne.1 c hc ⟨hb, hContains⟩)
      rw [hInside.1 hb, hRest]
    · next hb => rw [hOutside.1 (Bool.eq_false_iff.mpr hb), ih hOne.2 hInside.2 hOutside.2]

theorem WellFormed.length_le (h : m.WellFormed) (hb : b ∈ m.blocks) : b.length ≤ 2 ^ 32 :=
  Nat.le_of_add_left_le (h.fits b.place (List.mem_map_of_mem hb)).le

/-- A store to RAM overwrites one byte of it. -/
theorem WellFormed.store_eq (h : m.WellFormed) (hRam : m.IsRam a) (v : Byte) :
    m.store a v =
      (m.overwrite (byteOnly a v), if m.notifyWrites then [.memory a v] else []) := by
  obtain ⟨b, bytes, hBlock, hBytes⟩ := exists_block_of_isRam hRam
  rw [store_of_ram hBlock hBytes, overwrite, updateFirst_eq_map (h.pairwise_blocks a)
    (g := (·.overwrite (byteOnly a v)))]
  · intro c hc hContains
    cases hBlock.symm.trans (h.block?_eq hc hContains)
    have hLe := h.length_le hc
    obtain ⟨name, start, backing⟩ := b
    cases hBytes
    simp only [Block.overwrite, Block.mk.injEq, Backing.ram.injEq, true_and]
    apply Array.ext
    · rw [Array.size_setIfInBounds, Array.size_mapIdx]
    · intro i hi hi'
      have hi'' : i < 2 ^ 32 := Nat.lt_of_lt_of_le (by rwa [Array.size_setIfInBounds] at hi) hLe
      have hSame : start + BitVec.ofNat 32 i = a ↔ Block.offset ⟨name, start, .ram bytes⟩ a = i := by
        constructor
        · rintro rfl
          exact toNat_add_ofNat_sub start hi''
        · rintro rfl
          exact add_ofNat_toNat_sub start a
      rw [Array.getElem_setIfInBounds, Array.getElem_mapIdx, byteOnly]
      simp only [hSame]
      split <;> rfl
  · intro c hc hContains
    apply c.overwrite_eq_self
    · intro x hx
      rw [byteOnly, if_neg]
      rintro rfl
      cases hContains.symm.trans hx
    · exact h.length_le hc

/-! ### Writes -/

/-- The bytes that stores leave, the last one to an address. -/
def written : List (Word × Byte) → Word → Option Byte
  | [] => fun _ => none
  | (a, v) :: ss => fun x => (written ss x).or (byteOnly a v x)

theorem written_append (ss ss' : List (Word × Byte)) (x : Word) :
    written (ss ++ ss') x = (written ss' x).or (written ss x) := by
  induction ss with
  | nil => exact Option.or_none.symm
  | cons s ss ih =>
    simp only [List.cons_append, written, ih]
    exact Option.or_assoc

theorem IsRam.of_blanks (h : m.IsRam a) (hBlanks : m'.blanks = m.blanks) : m'.IsRam a := by
  rw [IsRam, places_eq_map_blanks, hBlanks, ← places_eq_map_blanks]
  exact h

theorem WellFormed.storeAll_eq (h : m.WellFormed) {ss : List (Word × Byte)}
    (hRam : ∀ s ∈ ss, m.IsRam s.1) :
    m.storeAll ss =
      (m.overwrite (written ss),
        if m.notifyWrites then ss.map fun s => .memory s.1 s.2 else []) := by
  induction ss generalizing m with
  | nil =>
    have hBlocks : m.blocks.map (·.overwrite (written [])) = m.blocks := by
      refine (List.map_congr_left fun b hb => ?_).trans (List.map_id m.blocks)
      exact b.overwrite_eq_self _ (fun _ _ => rfl) (h.length_le hb)
    rw [storeAll, overwrite, hBlocks]
    split <;> rfl
  | cons s ss ih =>
    obtain ⟨a, v⟩ := s
    rw [List.forall_mem_cons] at hRam
    have hBlanks := blanks_overwrite m (byteOnly a v)
    have hRest := ih (h.of_blanks hBlanks) fun s hs => (hRam.2 s hs).of_blanks hBlanks
    simp only [storeAll, h.store_eq hRam.1, hRest, overwrite_overwrite, List.map_cons]
    refine Prod.ext rfl ?_
    show _ ++ (if m.notifyWrites then _ else _) = _
    split <;> rfl

/-- The bytes that a write leaves. -/
def wrote (width : Width) (a v x : Word) : Option Byte :=
  if (x - a).toNat < width.bytes then some (byteAt v (x - a).toNat) else none

theorem written_map_range (a v : Word) {n : Nat} (hn : n ≤ 2 ^ 32) (x : Word) :
    written ((List.range n).map fun i => (a + BitVec.ofNat 32 i, byteAt v i)) x =
      if (x - a).toNat < n then some (byteAt v (x - a).toNat) else none := by
  induction n with
  | zero => rfl
  | succ n ih =>
    have hSame : x = a + BitVec.ofNat 32 n ↔ (x - a).toNat = n := by
      constructor
      · rintro rfl
        exact toNat_add_ofNat_sub a hn
      · rintro rfl
        exact (add_ofNat_toNat_sub a x).symm
    rw [List.range_succ, List.map_append, written_append, ih (Nat.le_of_succ_le hn)]
    simp only [List.map_cons, List.map_nil, written, byteOnly, hSame, Nat.lt_succ_iff_lt_or_eq,
      Option.none_or]
    generalize (x - a).toNat = k
    by_cases hLast : k = n
    · simp [hLast]
    · simp [hLast]

theorem stores_eq_map (width : Width) (a v : Word) :
    stores width a v =
      (List.range width.bytes).map fun i => (a + BitVec.ofNat 32 i, byteAt v i) := by
  rw [stores, accessed, littleEndian, List.zip_map', List.map_congr_left]
  exact fun _ _ => rfl

theorem written_stores (width : Width) (a v : Word) :
    written (stores width a v) = wrote width a v := by
  funext x
  rw [stores_eq_map, written_map_range]
  · rfl
  · cases width <;> decide

/-! ### Everything that is read -/

theorem mem_accessed_iff {width : Width} {x : Word} :
    x ∈ accessed a width.bytes ↔ (x - a).toNat < width.bytes := by
  simp only [accessed, List.mem_map, List.mem_range]
  constructor
  · rintro ⟨i, hi, rfl⟩
    rwa [toNat_add_ofNat_sub]
    exact Nat.lt_of_lt_of_le hi (by cases width <;> decide)
  · intro h
    exact ⟨_, h, add_ofNat_toNat_sub a x⟩

theorem exists_ram?_of_isRam (h : m.IsRam a) : ∃ v, m.ram? a = some v := by
  obtain ⟨b, bytes, hBlock, hBytes⟩ := exists_block_of_isRam h
  exact ⟨_, by rw [ram?, hBlock, Option.bind_some, Block.bytes?, hBytes]; rfl⟩

theorem isRam_of_ram? {v : Byte} (h : m.ram? a = some v) : m.IsRam a := by
  rw [ram?, Option.bind_eq_some_iff] at h
  obtain ⟨b, hBlock, hByte⟩ := h
  have hFind : m.places.find? (·.contains a) = some b.place := by
    rw [places, List.find?_map]
    exact congrArg (Option.map Block.place) hBlock
  refine ⟨b.place, hFind, ?_⟩
  obtain ⟨name, start, bytes | ⟨d, n⟩ | ⟨i, n⟩⟩ := b
  · rfl
  · cases hByte
  · cases hByte

theorem peekByte_of_ram? {v : Byte} (h : m.ram? a = some v) :
    m.peekByte a = .ok v ∧ m.fetch a = (v, m) := by
  obtain ⟨x, hPeek, hFetch⟩ := fetch_of_isRam (isRam_of_ram? h)
  rw [ram?, Option.bind_eq_some_iff] at h
  obtain ⟨b, hBlock, hByte⟩ := h
  have hSame : b.peek m.panel (b.offset a) = v := by
    obtain ⟨name, start, bytes | ⟨d, n⟩ | ⟨i, n⟩⟩ := b
    · exact Option.some.inj hByte
    · cases hByte
    · cases hByte
  have hPeek' : m.peekByte a = .ok v := by rw [peekByte, hBlock, ← hSame]
  cases hPeek.symm.trans hPeek'
  exact ⟨hPeek', hFetch⟩

theorem fetchAll_of_ram? {as : List Word} {vs : List Byte}
    (h : List.Forall₂ (fun a v => m.ram? a = some v) as vs) :
    as.mapM m.peekByte = .ok vs ∧ m.fetchAll as = (vs, m) := by
  induction h with
  | nil => exact ⟨rfl, rfl⟩
  | cons hHead _ ih =>
    obtain ⟨hPeek, hFetch⟩ := peekByte_of_ram? hHead
    constructor
    · rw [List.mapM_cons, hPeek, ih.1]
      rfl
    · simp only [fetchAll, hFetch, ih.2]

theorem ofBytes_eq (vs : List Byte) : Word.ofBytes vs = BitVec.ofNat 32 (spelled vs) :=
  BitVec.eq_of_toNat_eq ((toNat_ofBytes vs).trans (BitVec.toNat_ofNat _ _).symm)

/-- A read of RAM gives what its bytes spell, and changes nothing. -/
theorem read_of_ram? {width : Width} {vs : List Byte}
    (h : List.Forall₂ (fun x v => m.ram? x = some v) (accessed a width.bytes) vs) :
    m.read width a = .ok (BitVec.ofNat 32 (spelled vs), m) ∧
      m.peek width a = .ok (BitVec.ofNat 32 (spelled vs)) := by
  obtain ⟨hPeeks, hFetch⟩ := fetchAll_of_ram? h
  have hRam : ∀ x ∈ accessed a width.bytes, m.IsRam x :=
    ((List.forall₂_and_left _ _).mp (h.imp fun _ _ hv => ⟨isRam_of_ram? hv, hv⟩)).1
  constructor
  · rw [read, checkMapped_of_isRam hRam]
    simp only [hFetch, ofBytes_eq]
  · rw [peek, hPeeks, ← ofBytes_eq]
    rfl

theorem read_byte_of_ram? {v : Byte} (h : m.ram? a = some v) :
    m.read .byte a = .ok (v.setWidth 32, m) ∧ m.peek .byte a = .ok (v.setWidth 32) := by
  have hOne : accessed a Width.byte.bytes = [a] := by simp [accessed, Width.bytes]
  have hByte : BitVec.ofNat 32 (spelled [v]) = v.setWidth 32 := by simp [spelled]
  rw [← hByte]
  exact read_of_ram? (hOne ▸ .cons h .nil)

/-- What an access reads is the little-endian composition of what single bytes read. -/
structure Composes (m : Memory) (width : Width) (a : Word) (bytes : List Byte) : Prop where
  single : List.Forall₂
    (fun x v => m.read .byte x = .ok (v.setWidth 32, m) ∧ m.peek .byte x = .ok (v.setWidth 32))
    (accessed a width.bytes) bytes
  read : m.read width a = .ok (BitVec.ofNat 32 (spelled bytes), m)
  peek : m.peek width a = .ok (BitVec.ofNat 32 (spelled bytes))

theorem composes_of_ram? {width : Width} {vs : List Byte}
    (h : List.Forall₂ (fun x v => m.ram? x = some v) (accessed a width.bytes) vs) :
    Composes m width a vs := by
  obtain ⟨hRead, hPeek⟩ := read_of_ram? h
  exact ⟨h.imp fun _ _ hv => read_byte_of_ram? hv, hRead, hPeek⟩

theorem forall₂_ram?_of_isRam {as : List Word} (h : ∀ x ∈ as, m.IsRam x) :
    List.Forall₂ (fun x v => m.ram? x = some v) as (as.map fun x => (m.ram? x).getD 0) := by
  rw [List.forall₂_map_right_iff, List.forall₂_same]
  intro x hx
  obtain ⟨v, hv⟩ := exists_ram?_of_isRam (h x hx)
  rw [hv]
  rfl

/-! ### Reads after writes -/

/-- A store anywhere else, to RAM or to a device, leaves the byte alone. -/
theorem ram?_store_of_ne {x : Word} (hx : x ≠ a) (v : Byte) : (m.store a v).1.ram? x = m.ram? x := by
  cases hBlock : m.block? a with
  | none => rw [store_of_block?_eq_none hBlock]
  | some b =>
    cases hDevice : b.device? m.panel with
    | none =>
      obtain ⟨bytes, hBytes⟩ := b.exists_bytes_of_device? hDevice
      rw [ram?_store_of_ram hBlock hBytes, Function.update_of_ne hx]
    | some d =>
      rw [store_of_device hBlock hDevice, ram?_putDevice hBlock hDevice (reset_write d _ v)]

theorem ram?_storeAll_of_notMem {ss : List (Word × Byte)} {x : Word}
    (hx : x ∉ ss.map Prod.fst) : (m.storeAll ss).1.ram? x = m.ram? x := by
  induction ss generalizing m with
  | nil => rfl
  | cons s ss ih =>
    rw [List.map_cons, List.mem_cons, not_or] at hx
    exact (ih hx.2).trans (ram?_store_of_ne hx.1 s.2)

/-- A write, of whatever width and to whatever is there, that touches none of the addresses. -/
def WritesElsewhere (as : List Word) (o : Op) : Prop :=
  ∃ width a v, o = .write width a v ∧ ∀ x ∈ as, x ∉ accessed a width.bytes

theorem ram?_apply_of_writesElsewhere {as : List Word} {o : Op} (h : WritesElsewhere as o) {x : Word}
    (hx : x ∈ as) : (m.apply o).1.ram? x = m.ram? x := by
  obtain ⟨width, a, v, rfl, hApart⟩ := h
  rw [apply, write]
  split
  · rfl
  · refine ram?_storeAll_of_notMem ?_
    rw [map_fst_stores]
    exact hApart x hx

theorem ram?_after_of_writesElsewhere {as : List Word} {os : List Op}
    (h : ∀ o ∈ os, WritesElsewhere as o) {x : Word} (hx : x ∈ as) :
    (m.after os).ram? x = m.ram? x := by
  induction os generalizing m with
  | nil => rfl
  | cons o os ih =>
    rw [List.forall_mem_cons] at h
    exact (ih h.2).trans (ram?_apply_of_writesElsewhere h.1 hx)

/-! ### Writes to RAM -/

theorem checkWritable_of_isRam {as : List Word} (h : ∀ a ∈ as, m.IsRam a) :
    m.checkWritable as = .ok () := by
  induction as with
  | nil => rfl
  | cons a as ih =>
    rw [List.forall_mem_cons] at h
    obtain ⟨b, bytes, hBlock, hBytes⟩ := exists_block_of_isRam h.1
    have hNone : m.storeError? a = none := by simp only [storeError?, hBlock, Block.device?, hBytes]
    rw [checkWritable, hNone]
    exact ih h.2

theorem WellFormed.write_eq (h : m.WellFormed) {width : Width}
    (hRam : ∀ x ∈ accessed a width.bytes, m.IsRam x) (v : Word) :
    m.write width a v =
      .ok (m.overwrite (wrote width a v),
        if m.notifyWrites then (stores width a v).map fun s => .memory s.1 s.2 else []) := by
  have hStores : ∀ s ∈ stores width a v, m.IsRam s.1 := by
    intro s hs
    apply hRam
    rw [← map_fst_stores width a v]
    exact List.mem_map_of_mem hs
  rw [write, checkWritable_of_isRam hRam]
  simp only [h.storeAll_eq hStores, written_stores]

theorem wrote_of_mem {width : Width} {v x : Word} (hx : x ∈ accessed a width.bytes) :
    wrote width a v x = some (byteAt v (x - a).toNat) := if_pos (mem_accessed_iff.mp hx)

theorem wrote_of_notMem {width : Width} {v x : Word} (hx : x ∉ accessed a width.bytes) :
    wrote width a v x = none := if_neg (mt mem_accessed_iff.mpr hx)

/-- The second memory is the first after a write to RAM: the bytes of the write are there, and
nothing else is different. -/
structure Overwritten (m m' : Memory) (width : Width) (a v : Word) : Prop where
  inside : ∀ x ∈ accessed a width.bytes, m'.ram? x = some (byteAt v (x - a).toNat)
  outside : ∀ x, x ∉ accessed a width.bytes → m'.ram? x = m.ram? x
  peeks : ∀ x, x ∉ accessed a width.bytes → m'.peekByte x = m.peekByte x
  devices : ∀ (k : Nat) (b : Block), m.blocks[k]? = some b → b.isDevice = true → m'.blocks[k]? = some b
  panel : m'.panel = m.panel
  notifyWrites : m'.notifyWrites = m.notifyWrites
  blanks : m'.blanks = m.blanks

theorem ram?_overwrite_of_isRam (h : m.IsRam a) (f : Word → Option Byte) {v : Byte}
    (hv : f a = some v) : (m.overwrite f).ram? a = some v := by
  obtain ⟨x, hx⟩ := exists_ram?_of_isRam h
  rw [ram?_overwrite, hx, hv]
  rfl

theorem ram?_overwrite_of_eq_none {f : Word → Option Byte} (h : f a = none) :
    (m.overwrite f).ram? a = m.ram? a := by
  rw [ram?_overwrite, h]
  exact Option.map_id_apply

theorem peekByte_overwrite_of_eq_none {f : Word → Option Byte} (h : f a = none) :
    (m.overwrite f).peekByte a = m.peekByte a := by
  have hSame := ram?_overwrite_of_eq_none (m := m) h
  cases hRam : m.ram? a with
  | some v => rw [(peekByte_of_ram? (hSame.trans hRam)).1, (peekByte_of_ram? hRam).1]
  | none =>
    rw [peekByte, peekByte, block?_overwrite]
    cases hBlock : m.block? a with
    | none => rfl
    | some b =>
      have hDevice : b.isDevice = true := by
        rw [ram?, hBlock, Option.bind_some] at hRam
        obtain ⟨name, start, bytes | ⟨d, n⟩ | ⟨i, n⟩⟩ := b
        · cases hRam
        · rfl
        · rfl
      rw [Option.map_some, b.overwrite_of_isDevice f hDevice]
      rfl

theorem overwritten_overwrite {width : Width} (hRam : ∀ x ∈ accessed a width.bytes, m.IsRam x)
    (v : Word) : Overwritten m (m.overwrite (wrote width a v)) width a v where
  inside x hx := ram?_overwrite_of_isRam (hRam x hx) _ (wrote_of_mem hx)
  outside x hx := ram?_overwrite_of_eq_none (wrote_of_notMem hx)
  peeks x hx := peekByte_overwrite_of_eq_none (wrote_of_notMem hx)
  devices k b hb hDevice := by
    simp only [overwrite, List.getElem?_map, hb, Option.map_some, b.overwrite_of_isDevice _ hDevice]
  panel := rfl
  notifyWrites := rfl
  blanks := blanks_overwrite m _

/-- What was written to RAM is read, whatever was written elsewhere since. -/
theorem Overwritten.read_after {width : Width} {v : Word} (h : Overwritten m m' width a v)
    {os : List Op} (hElsewhere : ∀ o ∈ os, WritesElsewhere (accessed a width.bytes) o) :
    (m'.after os).read width a =
        .ok (BitVec.ofNat 32 (v.toNat % 2 ^ (8 * width.bytes)), m'.after os) ∧
      (m'.after os).peek width a = .ok (BitVec.ofNat 32 (v.toNat % 2 ^ (8 * width.bytes))) := by
  rw [← spelled_littleEndian]
  apply read_of_ram?
  have hByte : ∀ i < width.bytes, (m'.after os).ram? (a + BitVec.ofNat 32 i) = some (byteAt v i) := by
    intro i hi
    have hMem : a + BitVec.ofNat 32 i ∈ accessed a width.bytes :=
      List.mem_map_of_mem (List.mem_range.mpr hi)
    have hSmall : i < 2 ^ 32 := Nat.lt_of_lt_of_le hi (by cases width <;> decide)
    rw [ram?_after_of_writesElsewhere hElsewhere hMem, h.inside _ hMem, toNat_add_ofNat_sub a hSmall]
  rw [accessed, littleEndian, List.forall₂_map_left_iff, List.forall₂_map_right_iff, List.forall₂_same]
  exact fun i hi => hByte i (List.mem_range.mp hi)

/-- In every memory that operations lead to, RAM is one little-endian array of bytes. Reads and peeks
of any width are the composition of those of single bytes. A write changes its own bytes, no other
byte of any block and no device. What was written is read back, whatever was written elsewhere in
between, and of two writes the later one counts at every address that both have. Accesses may be
unaligned, go from block to block, or wrap at the end of the address space. -/
theorem ram_little_endian_array (h : m.Reached) {width : Width}
    (hRam : ∀ x ∈ accessed a width.bytes, m.IsRam x) :
    (∃ bytes, Composes m width a bytes) ∧
    ∀ v, ∃ m',
      m.write width a v =
        .ok (m', if m.notifyWrites then (stores width a v).map fun s => .memory s.1 s.2 else []) ∧
      Overwritten m m' width a v ∧
      (∀ os, (∀ o ∈ os, WritesElsewhere (accessed a width.bytes) o) →
        (m'.after os).read width a =
            .ok (BitVec.ofNat 32 (v.toNat % 2 ^ (8 * width.bytes)), m'.after os) ∧
          (m'.after os).peek width a = .ok (BitVec.ofNat 32 (v.toNat % 2 ^ (8 * width.bytes)))) ∧
      ∀ width' a' v', (∀ x ∈ accessed a' width'.bytes, m.IsRam x) →
        ∃ m'' es, m'.write width' a' v' = .ok (m'', es) ∧ Overwritten m' m'' width' a' v' ∧
          ∀ x, m''.ram? x =
            if x ∈ accessed a' width'.bytes then some (byteAt v' (x - a').toNat)
            else if x ∈ accessed a width.bytes then some (byteAt v (x - a).toNat)
            else m.ram? x := by
  have hWell := h.wellFormed
  refine ⟨⟨_, composes_of_ram? (forall₂_ram?_of_isRam hRam)⟩, fun v => ?_⟩
  have hFirst := overwritten_overwrite hRam v
  refine ⟨_, hWell.write_eq hRam v, hFirst, fun os hElsewhere => hFirst.read_after hElsewhere,
    fun width' a' v' hRam' => ?_⟩
  have hRam₁ : ∀ x ∈ accessed a' width'.bytes, (m.overwrite (wrote width a v)).IsRam x := fun x hx =>
    (hRam' x hx).of_blanks hFirst.blanks
  have hSecond := overwritten_overwrite hRam₁ v'
  refine ⟨_, _, (hWell.of_blanks hFirst.blanks).write_eq hRam₁ v', hSecond, fun x => ?_⟩
  split
  · next hx => exact hSecond.inside x hx
  next hx =>
  rw [hSecond.outside x hx]
  split
  · next hx => exact hFirst.inside x hx
  · next hx => exact hFirst.outside x hx

theorem places_addRam_high :
    (standard.after [.addRam "high".toList 0xffffff00 0x100]).places = standard.places ++ [high] := by
  have hAdd := (standard_wellFormed.addRam "high".toList 0xffffff00 0x100).ok_iff.mpr
    ⟨⟨by decide, by decide⟩, clearOf_high⟩
  rw [places_after, registered, registers?, hAdd]
  simp [registered, Except.toOption, Block.place, Block.length, Block.isDevice, high]

theorem accessed_word_around : accessed 0xfffffffe Width.word.bytes =
    [0xfffffffe, 0xffffffff, 0, 1] := rfl

theorem accessed_half_around : accessed 0xffffffff Width.half.bytes = [0xffffffff, 0] := rfl

/-- A word around the end of the address space, half of it in RAM there and half in RAM at the start,
is read back after a store next to it and one to the LEDs. Of a shorter one written into its middle
the bytes count from then on. -/
theorem ram_little_endian_array_around :
    ∃ m m' es m'' es', m = standard.after [.addRam "high".toList 0xffffff00 0x100] ∧
      m.write .word 0xfffffffe 0x11223344 = .ok (m', es) ∧
      (m'.after [.write .half 2 7, .write .byte 0xff200000 9]).read .word 0xfffffffe =
        .ok (0x11223344, m'.after [.write .half 2 7, .write .byte 0xff200000 9]) ∧
      m'.write .half 0xffffffff 0x5566 = .ok (m'', es') ∧
      m''.ram? 0xffffffff = some 0x66 ∧ m''.ram? 0 = some 0x55 ∧ m''.ram? 1 = some 0x11 := by
  have hPlaces := places_addRam_high
  have hReached : (standard.after [.addRam "high".toList 0xffffff00 0x100]).Reached := .standard _
  generalize hm : standard.after [.addRam "high".toList 0xffffff00 0x100] = m at hPlaces hReached
  have hRam : ∀ x ∈ ([0xfffffffe, 0xffffffff, 0, 1] : List Word), m.IsRam x := by
    have hFind : ([0xfffffffe, 0xffffffff, 0, 1] : List Word).all (fun x =>
        ((standard.places ++ [high]).find? (·.contains x)).any Place.isRam) = true := by
      rw [places_standard]
      decide +kernel
    intro x hx
    rw [IsRam, hPlaces]
    exact (Option.any_eq_true _ _).mp (List.all_eq_true.mp hFind x hx)
  have hRam' : ∀ x ∈ accessed 0xffffffff Width.half.bytes, m.IsRam x := by
    rw [accessed_half_around, List.forall_mem_cons, List.forall_mem_singleton]
    exact ⟨hRam _ (by simp), hRam _ (by simp)⟩
  obtain ⟨-, hWrite⟩ := ram_little_endian_array hReached (accessed_word_around ▸ hRam)
  obtain ⟨m', hWrite, -, hRead, hAgain⟩ := hWrite 0x11223344
  obtain ⟨m'', es', hWrite', -, hByte⟩ := hAgain .half 0xffffffff 0x5566 hRam'
  have hElsewhere : ∀ o ∈ [Op.write .half 2 7, .write .byte 0xff200000 9],
      WritesElsewhere (accessed 0xfffffffe Width.word.bytes) o := by
    have hNext : accessed 2 Width.half.bytes = [2, 3] := rfl
    have hLeds : accessed 0xff200000 Width.byte.bytes = [0xff200000] := rfl
    rw [List.forall_mem_cons, List.forall_mem_singleton]
    refine ⟨⟨.half, 2, 7, rfl, ?_⟩, ⟨.byte, 0xff200000, 9, rfl, ?_⟩⟩
    · rw [accessed_word_around, hNext]
      simp
    · rw [accessed_word_around, hLeds]
      simp
  rw [accessed_word_around, accessed_half_around] at hByte
  exact ⟨m, m', _, m'', es', rfl, hWrite, (hRead _ hElsewhere).1, hWrite', (hByte _).trans rfl,
    (hByte _).trans rfl, (hByte _).trans rfl⟩

end Memory

end NiosBoard
