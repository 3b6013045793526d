import Mathlib.Data.List.Forall2

/-! # Positions in lists

How related lists and lists of chunks are looked up by position, where a list splits that ends in a
given element, and when the position does not matter because at most one element qualifies.
-/

namespace NiosBoard

variable {α β : Type}

theorem exists_of_mem_forall₂ {R : α → β → Prop} {l : List α} {r : List β}
    (h : List.Forall₂ R l r) {a : α} (ha : a ∈ l) : ∃ b ∈ r, R a b := by
  induction h with
  | nil => cases ha
  | cons hHead hTail ih =>
    rcases List.mem_cons.mp ha with rfl | ha
    · exact ⟨_, List.mem_cons_self, hHead⟩
    · obtain ⟨b, hb, hR⟩ := ih ha
      exact ⟨b, List.mem_cons_of_mem _ hb, hR⟩

theorem exists_getElem?_of_forall₂ {R : α → β → Prop} {l : List α} {r : List β}
    (h : List.Forall₂ R l r) {i : Nat} {b : β} (hb : r[i]? = some b) :
    ∃ a, l[i]? = some a ∧ R a b := by
  induction h generalizing i with
  | nil => cases hb
  | cons hHead hTail ih =>
    cases i with
    | zero =>
      cases hb
      exact ⟨_, rfl, hHead⟩
    | succ i => exact ih hb

/-- Chunk number `i` of a list of chunks of one length. -/
theorem take_drop_flatMap {f : α → List β} {n : Nat} (hf : ∀ a, (f a).length = n) {l : List α}
    {i : Nat} {a : α} (h : l[i]? = some a) (rest : List β) :
    ((l.flatMap f ++ rest).drop (n * i)).take n = f a := by
  induction l generalizing i with
  | nil => cases h
  | cons b l ih =>
    rw [List.flatMap_cons, List.append_assoc]
    cases i with
    | zero =>
      cases h
      rw [Nat.mul_zero, List.drop_zero, ← hf a, List.take_left]
    | succ i =>
      rw [Nat.mul_succ, Nat.add_comm, ← List.drop_drop, ← hf b, List.drop_left, hf b]
      exact ih h

theorem countP_le_one {p : α → Bool} {l : List α}
    (h : l.Pairwise fun a b => ¬ (p a = true ∧ p b = true)) : l.countP p ≤ 1 := by
  induction h with
  | nil => exact Nat.zero_le 1
  | @cons a l hHead _ ih =>
    rw [List.countP_cons]
    split
    · next ha =>
      have hNone : l.countP p = 0 := List.countP_eq_zero.mpr fun b hb hpb => hHead b hb ⟨ha, hpb⟩
      omega
    · exact ih

theorem find?_eq_of_perm {p : α → Bool} {l l' : List α} (hCount : l.countP p ≤ 1)
    (h : l'.Perm l) : l'.find? p = l.find? p := by
  have hFilter := h.filter p
  rw [List.countP_eq_length_filter] at hCount
  rw [← List.head?_filter, ← List.head?_filter]
  match hl : l.filter p with
  | [] =>
    rw [hl] at hFilter
    rw [List.perm_nil.mp hFilter]
  | [a] =>
    rw [hl] at hFilter
    rw [List.perm_singleton.mp hFilter]
  | a :: b :: rest =>
    rw [hl] at hCount
    exact absurd hCount (by simp)

/-- An element of a list that ends in another one is either that last one or inside the rest. -/
theorem concat_eq_append_cons_iff {l before after : List α} {a b : α} :
    l ++ [a] = before ++ b :: after ↔
      (after = [] ∧ l = before ∧ a = b) ∨ ∃ rest, after = rest ++ [a] ∧ l = before ++ b :: rest := by
  rcases List.eq_nil_or_concat after with rfl | ⟨rest, y, rfl⟩
  · simp
  · rw [List.concat_eq_append, ← List.cons_append, ← List.append_assoc]
    constructor
    · intro h
      obtain ⟨hl, hLast⟩ := List.append_inj' h rfl
      cases hLast
      exact .inr ⟨rest, rfl, hl⟩
    · rintro (⟨h, -, -⟩ | ⟨rest', h, hl⟩)
      · simp at h
      · obtain ⟨rfl, hLast⟩ := List.append_inj' h rfl
        cases hLast
        rw [hl]

theorem exists_of_concat_eq_of_ne {l before after : List α} {a b : α} (hne : a ≠ b)
    (h : l ++ [a] = before ++ b :: after) : ∃ rest, l = before ++ b :: rest := by
  rcases concat_eq_append_cons_iff.mp h with ⟨-, -, hLast⟩ | ⟨rest, -, hl⟩
  · exact absurd hLast hne
  · exact ⟨rest, hl⟩

end NiosBoard
