import NiosBoard.Proofs.Assembly.Items
import NiosBoard.Proofs.Assembly.SecondPass
import NiosBoard.Proofs.Table

/-! # The two walks over the data

The layout adds up the sizes of the items, and the second walk appends their bytes to the image.
Both are at the same address modulo `2 ^ 32` when they come to an item. The layout stops at the item
where the sum of the sizes leaves the address space, and nothing else in the second pass fails like
that.
-/

namespace NiosBoard

open DataItem

/-! ### The labels of the data -/

/-- The labels of variables that are placed one after another from `address` on, each with its
address. The labels that still wait after the last one name the end. -/
def addressed (waiting : List Text) (address : Word) : List Variable → List (Text × Word)
  | [] => waiting.map (·, address)
  | v :: vs => v.labels.map (·, address) ++ addressed waiting (address + v.item.size address) vs

section Addressed

variable {waiting : List Text}

theorem map_fst_addressed (address : Word) (vs : List Variable) :
    (addressed waiting address vs).map Prod.fst = vs.flatMap (·.labels) ++ waiting := by
  induction vs generalizing address with
  | nil => simp [addressed, Function.comp_def]
  | cons v vs ih => simp [addressed, ih, Function.comp_def]

theorem mem_addressed {address : Word} {k : Nat} {vs : List Variable} {name : Text}
    (h : name ∈ ((vs.map (·.labels))[k]?).getD waiting) :
    (name, BitVec.ofNat 32 (addressAt address (vs.map (·.item)) k)) ∈
      addressed waiting address vs := by
  induction vs generalizing address k with
  | nil => simpa [addressed] using h
  | cons v vs ih =>
    rw [addressed, List.mem_append]
    cases k with
    | zero => exact .inl (List.mem_map.mpr ⟨name, h, by simp⟩)
    | succ k =>
      rw [List.map_cons, ofNat_addressAt_cons_succ]
      exact .inr (ih h)

end Addressed

namespace Draft

theorem place_eq_insertAll (labels : List Text) (address : Word) (t : Table Word) :
    place labels address t = t.insertAll (labels.map (·, address)) := by
  rw [Table.insertAll, List.foldl_map]
  rfl

theorem uaddOverflow_size_iff (address : Word) (item : DataItem) (items : List DataItem) :
    address.uaddOverflow (item.size address) = true ↔
      2 ^ 32 ≤ addressAt address (item :: items) 1 := by
  rw [addressAt_cons_one, BitVec.uaddOverflow, decide_eq_true_iff]

/-- A layout that succeeds gives each label its address and stays below the end of the address
space. -/
theorem layout_eq_ok {address dataEnd : Word} {t placed : Table Word} {vs : List Variable}
    (h : layout address t vs = .ok (placed, dataEnd)) (waiting : List Text) :
    place waiting dataEnd placed = t.insertAll (addressed waiting address vs) ∧
      ∀ k, addressAt address (vs.map (·.item)) k < 2 ^ 32 := by
  induction vs generalizing address t with
  | nil =>
    cases h
    refine ⟨place_eq_insertAll .., fun k => ?_⟩
    rw [List.map_nil, addressAt_nil]
    exact BitVec.isLt _
  | cons v vs ih =>
    simp only [layout] at h
    split at h
    · cases h
    · next hFits =>
      obtain ⟨hTable, hBound⟩ := ih h
      refine ⟨?_, fun k => ?_⟩
      · rw [hTable, addressed, Table.insertAll_append, place_eq_insertAll]
      · cases k with
        | zero =>
          rw [addressAt_zero]
          exact address.isLt
        | succ k =>
          rw [List.map_cons, addressAt_cons_succ hFits]
          exact hBound k

theorem layout_singleton {address : Word} {t : Table Word} {v : Variable}
    (h : address.toNat + (v.item.size address).toNat < 2 ^ 32) :
    layout address t [v] = .ok (place v.labels address t, address + v.item.size address) := by
  refine if_neg fun hOverflow => ?_
  rw [BitVec.uaddOverflow, decide_eq_true_iff] at hOverflow
  omega

/-- A layout fails at the item where the sum of the sizes leaves the address space. -/
theorem layout_eq_error_iff {address : Word} {t : Table Word} {vs : List Variable}
    {e : LineError} :
    layout address t vs = .error e ↔ ∃ k v, vs[k]? = some v ∧
      addressAt address (vs.map (·.item)) k < 2 ^ 32 ∧
      2 ^ 32 ≤ addressAt address (vs.map (·.item)) (k + 1) ∧
      e = Cause.atLine (.statement .dataOverflow) v.line := by
  induction vs generalizing address t with
  | nil => simp [layout]
  | cons v vs ih =>
    have hFirst := uaddOverflow_size_iff address v.item (vs.map (·.item))
    simp only [layout, List.map_cons]
    split
    · next hOverflow =>
      rw [hOverflow, eq_self, true_iff] at hFirst
      constructor
      · rintro ⟨⟩
        refine ⟨0, v, rfl, ?_, hFirst, rfl⟩
        rw [addressAt_zero]
        exact address.isLt
      · rintro ⟨k, w, hw, hBefore, -, rfl⟩
        cases k with
        | zero =>
          cases hw
          rfl
        | succ k =>
          have hOne : 1 ≤ k + 1 := Nat.le_add_left 1 k
          exact absurd (hFirst.trans (addressAt_mono hOne)) (Nat.not_le_of_lt hBefore)
    · next hFits =>
      rw [ih]
      constructor
      · rintro ⟨k, w, hw, hBefore, hAfter, he⟩
        refine ⟨k + 1, w, hw, ?_, ?_, he⟩
        · rwa [addressAt_cons_succ hFits]
        · rwa [addressAt_cons_succ hFits]
      · rintro ⟨k, w, hw, hBefore, hAfter, he⟩
        cases k with
        | zero => exact absurd (hFirst.mpr hAfter) hFits
        | succ k =>
          rw [addressAt_cons_succ hFits] at hBefore hAfter
          exact ⟨k, w, hw, hBefore, hAfter, he⟩

/-! ### Failures of the second pass -/

theorem exists_of_instructions_error {d : Draft} {symbols : Symbols} {e : LineError}
    (h : d.instructions symbols = .error e) : ∃ cause line, e = Cause.atLine (.expression cause) line := by
  obtain ⟨q, hq⟩ := exists_of_mapM_error h
  have hValue : q.value symbols = .error e := by
    rcases bind_eq_error_iff.mp hq with hValue | ⟨v, -, hShape⟩
    · exact hValue
    · split at hShape <;> cases hShape
  unfold Pending.value at hValue
  split at hValue
  · cases hValue
  · split at hValue
    · cases hValue
    · cases hValue
      exact ⟨_, _, rfl⟩

theorem exists_of_emission_error {vs : Array Variable} {symbols : Symbols} {image : Array Byte}
    {e : LineError} (h : vs.foldlM (emitVariable symbols) image = .error e) :
    ∃ cause line, e = Cause.atLine (.expression cause) line := by
  rw [← Array.foldlM_toList] at h
  obtain ⟨image', v, hv⟩ := exists_of_foldlM_error h
  unfold emitVariable at hv
  split at hv
  · cases hv
  · cases hv
    exact ⟨_, _, rfl⟩

/-- Only the layout finds that data leave the address space. -/
theorem link_eq_dataOverflow_iff {d : Draft} {line : Nat} :
    d.link = .error (Cause.atLine (.statement .dataOverflow) line) ↔
      layout d.dataStart d.symbols d.data.toList =
        .error (Cause.atLine (.statement .dataOverflow) line) := by
  constructor
  · intro h
    rcases bind_eq_error_iff.mp h with hLayout | ⟨⟨placed, dataEnd⟩, -, h⟩
    · exact hLayout
    rcases bind_eq_error_iff.mp h with hCode | ⟨is, -, h⟩
    · obtain ⟨cause, line', hCause⟩ := exists_of_instructions_error hCode
      cases hCause
    rcases bind_eq_error_iff.mp h with hData | ⟨image, -, h⟩
    · obtain ⟨cause, line', hCause⟩ := exists_of_emission_error hData
      cases hCause
    · cases h
  · intro h
    rw [link, h]
    rfl

end Draft

/-! ### The bytes of the data -/

namespace Emits

variable {symbols : Symbols} {address : Word} {k : Nat} {items : List DataItem}
  {chunks : List (List Byte)}

theorem map_length (h : Emits symbols address items chunks) :
    chunks.map List.length = lengths address items := by
  induction h with
  | nil => rfl
  | cons hItem hRest ih =>
    have hLength := length_of_emit hItem
    rw [List.map_cons, lengths, size_eq_ofNat_length, ← hLength, ih]

theorem exists_chunk (h : Emits symbols address items chunks) {item : DataItem}
    (hk : items[k]? = some item) :
    ∃ chunk, chunks[k]? = some chunk ∧
      item.emit (BitVec.ofNat 32 (addressAt address items k)) symbols = .ok chunk := by
  induction h generalizing k with
  | nil => cases hk
  | @cons address first items chunk chunks hItem hRest ih =>
    cases k with
    | zero =>
      cases hk
      exact ⟨chunk, rfl, by simpa using hItem⟩
    | succ k =>
      rw [ofNat_addressAt_cons_succ, size_eq_ofNat_length, ← length_of_emit hItem]
      exact ih hk

/-- The bytes written so far end where the lengths so far end. -/
theorem add_length_flatten_take (h : Emits symbols address items chunks) (k : Nat) :
    address.toNat + ((chunks.take k).flatten).length = positionAt address items k := by
  rw [positionAt, ← h.map_length, List.length_flatten, List.map_take]

theorem length_eq (h : Emits symbols address items chunks) : chunks.length = items.length := by
  rw [← List.length_map (f := List.length), h.map_length, length_lengths]

end Emits

end NiosBoard
