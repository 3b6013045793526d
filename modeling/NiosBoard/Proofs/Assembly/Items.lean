import NiosBoard.Assembly.Data
import NiosBoard.Proofs.Except
import NiosBoard.Proofs.Lists
import NiosBoard.Proofs.Assembly.Operands

/-! # Sizes and bytes of data items

An item becomes as many bytes as its length says. Its size is the length as a 32-bit number, so that
the layout, which adds up sizes, is at the position of an item as long as every item before it is
shorter than `2 ^ 32` bytes.
-/

namespace NiosBoard.DataItem

/-- The number of bytes that an item becomes at `address`. -/
def length (item : DataItem) (address : Word) : Nat :=
  match item with
  | .values width exprs => width.bytes * exprs.length
  | .bytes contents => contents.length
  | .skip length _ => length
  | .align exponent => (padding exponent address).toNat

theorem size_eq_ofNat_length (item : DataItem) (address : Word) :
    item.size address = BitVec.ofNat 32 (item.length address) := by
  cases item with
  | values width exprs => exact (BitVec.ofNat_mul ..).symm
  | bytes contents => rfl
  | skip length fill => rfl
  | align exponent => exact ((BitVec.ofNat_toNat ..).trans (BitVec.setWidth_eq _)).symm

/-! ### What operands become -/

theorem toNat_le_of_toInt {v : Value} {bound : Nat} (hNonneg : 0 ≤ v.toInt)
    (hBound : v.toInt ≤ bound) : v.toNat ≤ bound := by
  rw [BitVec.toInt_eq_toNat_cond] at hNonneg hBound
  split at hBound <;> omega

theorem exists_of_ofLength {lengthText : Text} {fill : Byte} {item : DataItem}
    (h : ofLength lengthText fill = .ok item) :
    ∃ length, length ≤ Board.ramSize ∧ item = .skip length fill := by
  obtain ⟨length, -, h⟩ := bind_eq_ok_iff.mp h
  split at h
  · next hBounds =>
    cases h
    exact ⟨_, toNat_le_of_toInt hBounds.1 hBounds.2, rfl⟩
  · cases h

theorem exists_of_ofSkip {pieces : List Text} {item : DataItem} (h : ofSkip pieces = .ok item) :
    ∃ length fill, length ≤ Board.ramSize ∧ item = .skip length fill := by
  unfold ofSkip at h
  split at h
  · obtain ⟨length, hItem⟩ := exists_of_ofLength h
    exact ⟨length, _, hItem⟩
  · obtain ⟨fill, -, h⟩ := bind_eq_ok_iff.mp h
    obtain ⟨length, hItem⟩ := exists_of_ofLength h
    exact ⟨length, _, hItem⟩
  · cases h

theorem exists_of_ofAlign {pieces : List Text} {item : DataItem} (h : ofAlign pieces = .ok item) :
    ∃ exponent, exponent ≤ maxExponent ∧ item = .align exponent := by
  unfold ofAlign at h
  split at h
  · obtain ⟨exponent, -, h⟩ := bind_eq_ok_iff.mp h
    split at h
    · next hBounds =>
      cases h
      exact ⟨_, toNat_le_of_toInt hBounds.1 hBounds.2, rfl⟩
    · cases h
  · cases h

/-- All that operands can become. Only values and strings have no bound on their length. -/
theorem cases_of_ofOperands {kind : DataKind} {operands : Text} {item : DataItem}
    (h : ofOperands kind operands = .ok item) :
    (∃ width, kind = .values width ∧ item = .values width (Text.splitOperands operands)) ∨
      (∃ terminated contents, kind = .strings terminated ∧ item = .bytes contents) ∨
      (∃ length fill, kind = .skip ∧ length ≤ Board.ramSize ∧ item = .skip length fill) ∨
      (∃ exponent, kind = .align ∧ exponent ≤ maxExponent ∧ item = .align exponent) := by
  cases kind with
  | values width =>
    rw [ofOperands, ofValues] at h
    split at h
    · cases h
    · cases h
      exact .inl ⟨width, rfl, rfl⟩
  | strings terminated =>
    rw [ofOperands, ofStrings] at h
    split at h
    · cases h
    · obtain ⟨chunks, -, h⟩ := bind_eq_ok_iff.mp h
      cases h
      exact .inr (.inl ⟨terminated, _, rfl, rfl⟩)
  | skip =>
    obtain ⟨length, fill, hItem⟩ := exists_of_ofSkip h
    exact .inr (.inr (.inl ⟨length, fill, rfl, hItem⟩))
  | align =>
    obtain ⟨exponent, hItem⟩ := exists_of_ofAlign h
    exact .inr (.inr (.inr ⟨exponent, rfl, hItem⟩))

/-! ### Sizes and lengths -/

/-- The sizes of items that are placed one after another from `address` on. -/
def sizes (address : Word) : List DataItem → List Word
  | [] => []
  | item :: items => item.size address :: sizes (address + item.size address) items

/-- The lengths of these items, at the same addresses. -/
def lengths (address : Word) : List DataItem → List Nat
  | [] => []
  | item :: items => item.length address :: lengths (address + item.size address) items

/-- Where item number `k` starts by the sizes before it, or the end of the items when there are no
more than `k`. -/
def addressAt (address : Word) (items : List DataItem) (k : Nat) : Nat :=
  address.toNat + (((sizes address items).take k).map BitVec.toNat).sum

/-- Where item number `k` starts by the lengths before it. -/
def positionAt (address : Word) (items : List DataItem) (k : Nat) : Nat :=
  address.toNat + ((lengths address items).take k).sum

theorem sizes_eq_map_lengths (address : Word) (items : List DataItem) :
    sizes address items = (lengths address items).map (BitVec.ofNat 32) := by
  induction items generalizing address with
  | nil => rfl
  | cons item items ih => rw [sizes, lengths, List.map_cons, ih, size_eq_ofNat_length]

section AddressAt

variable (address : Word) (k : Nat) (item : DataItem) (items : List DataItem)

@[simp] theorem addressAt_zero : addressAt address items 0 = address.toNat := by
  simp [addressAt]

@[simp] theorem addressAt_nil : addressAt address [] k = address.toNat := by
  simp [addressAt, sizes]

@[simp] theorem positionAt_zero : positionAt address items 0 = address.toNat := by
  simp [positionAt]

theorem addressAt_cons_one :
    addressAt address (item :: items) 1 = address.toNat + (item.size address).toNat := by
  simp [addressAt, sizes]

/-- Modulo `2 ^ 32` the items behind the first one are where its end as a word puts them. -/
theorem ofNat_addressAt_cons_succ :
    BitVec.ofNat 32 (addressAt address (item :: items) (k + 1)) =
      BitVec.ofNat 32 (addressAt (address + item.size address) items k) := by
  simp only [addressAt, sizes, List.take_succ_cons, List.map_cons, List.sum_cons, BitVec.ofNat_add,
    BitVec.ofNat_toNat, BitVec.setWidth_eq, BitVec.add_assoc]

theorem length_lengths : (lengths address items).length = items.length := by
  induction items generalizing address with
  | nil => rfl
  | cons item items ih => exact congrArg Nat.succ (ih _)

theorem getElem?_lengths :
    (lengths address items)[k]? =
      items[k]?.map (·.length (BitVec.ofNat 32 (addressAt address items k))) := by
  induction items generalizing address k with
  | nil => rfl
  | cons first items ih =>
    cases k with
    | zero => simp [lengths]
    | succ k =>
      rw [ofNat_addressAt_cons_succ]
      exact ih _ k

theorem addressAt_length :
    addressAt address items items.length =
      address.toNat + ((sizes address items).map BitVec.toNat).sum := by
  rw [addressAt, List.take_of_length_le]
  rw [sizes_eq_map_lengths, List.length_map, length_lengths]

theorem addressAt_eq_sum_mod :
    addressAt address items k =
      address.toNat + (((lengths address items).take k).map (· % 2 ^ 32)).sum := by
  rw [addressAt, sizes_eq_map_lengths, ← List.map_take, List.map_map]
  rfl

end AddressAt

section Steps

variable {address : Word} {k : Nat} {item : DataItem} {items : List DataItem}

theorem addressAt_cons_succ (h : ¬ address.uaddOverflow (item.size address)) (k : Nat) :
    addressAt address (item :: items) (k + 1) =
      addressAt (address + item.size address) items k := by
  simp only [addressAt, sizes, List.take_succ_cons, List.map_cons, List.sum_cons,
    BitVec.toNat_add_of_not_uaddOverflow h, Nat.add_assoc]

theorem positionAt_succ (h : items[k]? = some item) :
    positionAt address items (k + 1) = positionAt address items k +
      item.length (BitVec.ofNat 32 (addressAt address items k)) := by
  simp only [positionAt, List.take_add_one, getElem?_lengths, h, Option.map_some,
    Option.toList_some, List.sum_append, List.sum_singleton, Nat.add_assoc]

theorem addressAt_succ (h : items[k]? = some item) :
    addressAt address items (k + 1) = addressAt address items k +
      item.length (BitVec.ofNat 32 (addressAt address items k)) % 2 ^ 32 := by
  have hLengths := getElem?_lengths address k items
  rw [h, Option.map_some] at hLengths
  rw [addressAt_eq_sum_mod address (k + 1), List.take_add_one, hLengths, Option.toList_some,
    List.map_append, List.sum_append, List.map_singleton, List.sum_singleton, ← Nat.add_assoc,
    ← addressAt_eq_sum_mod]

theorem addressAt_mono {j : Nat} (h : j ≤ k) :
    addressAt address items j ≤ addressAt address items k := by
  rw [addressAt, addressAt]
  exact Nat.add_le_add_left
    (((List.take_sublist_take_left h).map _).sum_le_sum fun _ _ => Nat.zero_le _) _

/-- The sizes add up to the lengths as long as these are 32-bit numbers. -/
theorem addressAt_eq_positionAt (h : ∀ n ∈ (lengths address items).take k, n < 2 ^ 32) :
    addressAt address items k = positionAt address items k := by
  rw [addressAt_eq_sum_mod, positionAt, List.map_congr_left fun n hn => Nat.mod_eq_of_lt (h n hn),
    List.map_id']

theorem addressAt_mod (address : Word) (items : List DataItem) (k : Nat) :
    addressAt address items k % 2 ^ 32 = positionAt address items k % 2 ^ 32 := by
  rw [addressAt_eq_sum_mod, positionAt, Nat.add_mod, ← List.sum_nat_mod, ← Nat.add_mod]

theorem addressAt_eq_positionAt_of_lt (h : positionAt address items k < 2 ^ 32) :
    addressAt address items k = positionAt address items k := by
  refine addressAt_eq_positionAt fun n hn => ?_
  have hSum := List.le_sum_of_mem hn
  rw [positionAt] at h
  omega

/-- Sizes and lengths have the same sums throughout only if every length is a 32-bit number. -/
theorem lt_of_addressAt_eq (h : ∀ k, addressAt address items k = positionAt address items k)
    {n : Nat} (hn : n ∈ lengths address items) : n < 2 ^ 32 := by
  obtain ⟨k, hk⟩ := List.mem_iff_getElem?.mp hn
  rw [getElem?_lengths, Option.map_eq_some_iff] at hk
  obtain ⟨item, hItem, rfl⟩ := hk
  have hSucc := h (k + 1)
  rw [addressAt_succ hItem, positionAt_succ hItem, h k] at hSucc
  have hMod := Nat.mod_lt (item.length (BitVec.ofNat 32 (positionAt address items k)))
    (Nat.two_pow_pos 32)
  rw [h k]
  omega

end Steps

/-! ### Padding -/

section Padding

variable {exponent : Nat}

theorem toNat_padding (h : exponent < 32) (address : Word) :
    (padding exponent address).toNat =
      (2 ^ exponent - address.toNat % 2 ^ exponent) % 2 ^ exponent := by
  have hPow : 2 ^ exponent < 2 ^ 32 := Nat.pow_lt_pow_right (by decide) h
  have hMultiple : ((1 : Word) <<< exponent).toNat = 2 ^ exponent := by
    rw [BitVec.toNat_shiftLeft, Nat.shiftLeft_eq]
    exact (congrArg (· % 2 ^ 32) (Nat.one_mul _)).trans (Nat.mod_eq_of_lt hPow)
  have hLt := Nat.mod_lt address.toNat (Nat.two_pow_pos exponent)
  simp only [padding]
  rw [BitVec.toNat_umod, BitVec.toNat_sub_of_le, BitVec.toNat_umod, hMultiple]
  rw [BitVec.le_def, BitVec.toNat_umod, hMultiple]
  exact Nat.le_of_lt hLt

theorem padding_lt (h : exponent < 32) (address : Word) :
    (padding exponent address).toNat < 2 ^ exponent := by
  rw [toNat_padding h]
  exact Nat.mod_lt _ (Nat.two_pow_pos exponent)

theorem dvd_add_padding (h : exponent < 32) (address : Word) :
    2 ^ exponent ∣ address.toNat + (padding exponent address).toNat := by
  rw [toNat_padding h, Nat.dvd_iff_mod_eq_zero, Nat.add_mod, Nat.mod_mod]
  have hLt := Nat.mod_lt address.toNat (Nat.two_pow_pos exponent)
  rcases Nat.eq_zero_or_pos (address.toNat % 2 ^ exponent) with hZero | hPos
  · rw [hZero, Nat.sub_zero, Nat.mod_self]
    rfl
  · rw [Nat.mod_eq_of_lt (Nat.sub_lt (Nat.two_pow_pos exponent) hPos),
      Nat.add_sub_cancel' (Nat.le_of_lt hLt), Nat.mod_self]

end Padding

/-! ### Emission -/

theorem emit_values_eq_ok {width : Width} {exprs : List Text} {address : Word} {symbols : Symbols}
    {chunk : List Byte} (h : (values width exprs).emit address symbols = .ok chunk) :
    ∃ vs, List.Forall₂ (fun v e => Expression.evaluate symbols e = .ok v) vs exprs ∧
      chunk = vs.flatMap (littleEndian width.bytes) := by
  obtain ⟨vs, hvs, h⟩ := bind_eq_ok_iff.mp h
  cases h
  exact ⟨vs, (mapM_eq_ok_iff.mp hvs).flip, rfl⟩

theorem length_of_emit {item : DataItem} {address : Word} {symbols : Symbols} {chunk : List Byte}
    (h : item.emit address symbols = .ok chunk) : chunk.length = item.length address := by
  cases item with
  | values width exprs =>
    obtain ⟨vs, hvs, rfl⟩ := emit_values_eq_ok h
    rw [length, ← hvs.length_eq, List.length_flatMap]
    simp [Nat.mul_comm]
  | bytes contents =>
    cases h
    rfl
  | skip length fill =>
    cases h
    exact List.length_replicate
  | align exponent =>
    cases h
    exact List.length_replicate

/-- Each expression of a list of values takes its own bytes, which spell its value modulo their
width. -/
theorem spelled_of_emit_values {width : Width} {exprs : List Text} {address : Word}
    {symbols : Symbols} {chunk : List Byte}
    (h : (values width exprs).emit address symbols = .ok chunk) {j : Nat} {e : Text}
    (he : exprs[j]? = some e) :
    ∃ v, Expression.evaluate symbols e = .ok v ∧
      (spelled ((chunk.drop (width.bytes * j)).take width.bytes) : Int) =
        v.toInt % 2 ^ (8 * width.bytes) := by
  obtain ⟨vs, hvs, rfl⟩ := emit_values_eq_ok h
  obtain ⟨v, hv, hValue⟩ := exists_getElem?_of_forall₂ hvs he
  have hBytes := take_drop_flatMap (fun v => length_littleEndian width.bytes v) hv []
  rw [List.append_nil] at hBytes
  refine ⟨v, hValue, ?_⟩
  rw [hBytes, spelled_littleEndian, Int.natCast_mod, Int.natCast_pow]
  exact toNat_emod_eq_toInt_emod (by cases width <;> decide) v

end NiosBoard.DataItem
