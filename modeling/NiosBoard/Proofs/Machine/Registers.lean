import NiosBoard.Machine.RegisterFile

/-! # What register operations leave

Marking a register, or forgetting what happened to all of them, changes neither values nor which
registers there are. A store is read back where the register is enabled and is not register 0.
Clearing leaves of the registers only which are enabled. A number that went through a word is what its
low bits spell, as many as there is room for.
-/

namespace NiosBoard

namespace Cell

@[simp] theorem value_markRead (c : Cell) : c.markRead.value = c.value := by
  rcases c with _ | ⟨v, _ | _ | _⟩ <;> rfl

@[simp] theorem value_forget (c : Cell) : c.forget.value = c.value := by
  cases c <;> rfl

@[simp] theorem isSome_access?_markRead (c : Cell) :
    c.markRead.access?.isSome = c.access?.isSome := by
  rcases c with _ | ⟨v, _ | _ | _⟩ <;> rfl

@[simp] theorem isSome_access?_forget (c : Cell) : c.forget.access?.isSome = c.access?.isSome := by
  cases c <;> rfl

theorem value_store {i : Nat} {c : Cell} (hEnabled : c.access?.isSome = true) (hi : i ≠ 0) (w : Word) :
    (c.store i w).value = w := by
  cases c with
  | disabled => cases hEnabled
  | enabled v a => simp [store, value, hi]

end Cell

namespace RegisterFile

variable (r : RegisterFile) (i j : Nat)

theorem cell_resetAccess : r.resetAccess.cell i = (r.cell i).forget := by
  unfold cell resetAccess
  by_cases hi : i < 32
  · simp [hi]
  · simp [hi, Cell.forget]

theorem cell_clear : r.clear.cell i = (r.cell i).clear := by
  unfold cell clear
  by_cases hi : i < 32
  · simp [hi]
  · simp [hi, Cell.clear]

@[simp] theorem peek_touch : (r.touch i).peek j = r.peek j := by
  unfold peek touch
  rw [cell_update]
  split <;> simp

@[simp] theorem isEnabled_touch : (r.touch i).isEnabled j = r.isEnabled j := by
  unfold isEnabled access? touch
  rw [cell_update]
  split <;> simp

@[simp] theorem peek_resetAccess : r.resetAccess.peek i = r.peek i := by
  rw [peek, cell_resetAccess, Cell.value_forget]
  rfl

@[simp] theorem isEnabled_resetAccess : r.resetAccess.isEnabled i = r.isEnabled i := by
  rw [isEnabled, access?, cell_resetAccess, Cell.isSome_access?_forget]
  rfl

theorem check_of_isEnabled {r : RegisterFile} {i : Nat} (h : r.isEnabled i = true) :
    r.check i = .ok () := by
  rw [check, if_pos h]

theorem isEnabled_of_peek_ne_zero {r : RegisterFile} {i : Nat} (h : r.peek i ≠ 0) :
    r.isEnabled i = true := by
  unfold isEnabled access?
  cases hCell : r.cell i with
  | disabled => exact absurd (congrArg Cell.value hCell) h
  | enabled v a => rfl

theorem peek_store {r : RegisterFile} {i : Nat} (hEnabled : r.isEnabled i = true) (hZero : i ≠ 0)
    (hLt : i < 32) (w : Word) : (r.store i w).peek i = w := by
  rw [peek, store, cell_update, if_pos ⟨rfl, hLt⟩]
  exact Cell.value_store hEnabled hZero w

theorem ext_cell {r s : RegisterFile} (h : ∀ i, r.cell i = s.cell i) : r = s := by
  obtain ⟨cells⟩ := r
  obtain ⟨cells'⟩ := s
  congr
  apply Vector.ext
  intro i hi
  simpa [cell, hi] using h i

theorem lt_of_cell_eq_enabled {r : RegisterFile} {i : Nat} {v : Word} {a : Access}
    (h : r.cell i = .enabled v a) : i < 32 := by
  by_cases hi : i < 32
  · exact hi
  · simp [cell, hi] at h

/-- The registers right after a load. -/
theorem cell_initial {sp : Nat} (hZero : sp ≠ 0) (top : Word) :
    ((r.clear.store sp top).resetAccess).cell i =
      if r.isEnabled i then .enabled (if i = sp then top else 0) .untouched else .disabled := by
  rw [cell_resetAccess, store, cell_update, cell_clear, isEnabled, access?]
  cases hCell : r.cell i with
  | disabled => split <;> rfl
  | enabled v a =>
    have hi := lt_of_cell_eq_enabled hCell
    by_cases hSp : sp = i
    · subst hSp
      simp [hi, hZero, Cell.clear, Cell.store, Cell.forget, Cell.access?]
    · simp [hSp, Ne.symm hSp, Cell.clear, Cell.forget, Cell.access?]

end RegisterFile

namespace NumberView

theorem bits_le (v : NumberView) : v.bits ≤ 32 := by
  rw [bits]
  cases v.width <;> decide

theorem setWidth_signExtend {n k : Nat} (x : BitVec n) (h : n ≤ k) :
    (x.signExtend k).setWidth n = x := by
  ext i hi
  rw [BitVec.getElem_setWidth, BitVec.getLsbD_signExtend, if_pos hi,
    decide_eq_true (Nat.lt_of_lt_of_le hi h), Bool.true_and, BitVec.getLsbD_eq_getElem]

/-- The bits of the word beyond the view depend on the sign, but reading it back ignores them. -/
theorem ofWord_toWord (v : NumberView) (x : Int) : v.ofWord (v.toWord x) =
    if v.signed then (BitVec.ofInt v.bits x).toInt else (BitVec.ofInt v.bits x).toNat := by
  rw [ofWord, toWord]
  cases v.signed with
  | true =>
    show (((BitVec.ofInt v.bits x).signExtend 32).setWidth v.bits).toInt = _
    rw [setWidth_signExtend _ v.bits_le]
    rfl
  | false =>
    show ((((BitVec.ofInt v.bits x).setWidth 32).setWidth v.bits).toNat : Int) = _
    rw [BitVec.setWidth_setWidth_of_le _ v.bits_le, BitVec.setWidth_eq]
    rfl

end NumberView

end NiosBoard
