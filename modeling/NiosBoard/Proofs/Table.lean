import Mathlib.Data.List.Basic
import NiosBoard.Table

/-! # The names in a table -/

namespace NiosBoard.Table

variable {α : Type}

def keys (t : Table α) : List Text := t.entries.map Prod.fst

theorem filter_of_not_mem_keys {t : Table α} {name : Text} (h : name ∉ t.keys) :
    t.entries.filter (·.1 != name) = t.entries := by
  rw [List.filter_eq_self]
  intro e he
  have hne : e.1 ≠ name := fun hEq => h (hEq ▸ List.mem_map_of_mem he)
  simpa using hne

theorem exists_get?_of_mem_keys {t : Table α} {name : Text} (h : name ∈ t.keys) :
    ∃ v, t.get? name = some v := by
  rw [get?, ← Option.ne_none_iff_exists', ne_eq, List.lookup_eq_none_iff]
  intro hNone
  obtain ⟨e, he, rfl⟩ := List.mem_map.mp h
  simpa using hNone e he

theorem mem_keys_of_get? {t : Table α} {name : Text} {v : α} (h : t.get? name = some v) :
    name ∈ t.keys := by
  obtain ⟨before, after, hEntries, -⟩ := List.lookup_eq_some_iff.mp h
  rw [keys, hEntries]
  simp

theorem keys_insert_of_not_mem {t : Table α} {name : Text} (h : name ∉ t.keys) (v : α) :
    (t.insert name v).keys = name :: t.keys := by
  rw [keys, insert, filter_of_not_mem_keys h]
  rfl

theorem mem_keys_insert {t : Table α} {name key : Text} {v : α} :
    key ∈ (t.insert name v).keys ↔ key = name ∨ key ∈ t.keys := by
  by_cases hKey : key = name <;> simp [keys, insert, hKey]

/-- Inserts one entry after another. -/
def insertAll (t : Table α) (l : List (Text × α)) : Table α := l.foldl (fun t e => t.insert e.1 e.2) t

theorem insertAll_append (t : Table α) (l l' : List (Text × α)) :
    t.insertAll (l ++ l') = (t.insertAll l).insertAll l' := List.foldl_append

theorem keys_insertAll {t : Table α} {l : List (Text × α)} (hNodup : (l.map Prod.fst).Nodup)
    (hNew : ∀ name ∈ l.map Prod.fst, name ∉ t.keys) :
    (t.insertAll l).keys = (l.map Prod.fst).reverse ++ t.keys := by
  induction l generalizing t with
  | nil => rfl
  | cons e l ih =>
    rw [List.map_cons, List.nodup_cons] at hNodup
    have hKeys := keys_insert_of_not_mem (hNew e.1 List.mem_cons_self) e.2
    have hRest : ∀ name ∈ l.map Prod.fst, name ∉ (t.insert e.1 e.2).keys := by
      intro name hName
      rw [hKeys, List.mem_cons, not_or]
      exact ⟨fun hEq => hNodup.1 (hEq ▸ hName), hNew name (List.mem_cons_of_mem _ hName)⟩
    show ((t.insert e.1 e.2).insertAll l).keys = _
    rw [ih hNodup.2 hRest, hKeys]
    simp

theorem get?_insertAll_of_not_mem {t : Table α} {l : List (Text × α)} {name : Text}
    (h : name ∉ l.map Prod.fst) : (t.insertAll l).get? name = t.get? name := by
  induction l generalizing t with
  | nil => rfl
  | cons e l ih =>
    rw [List.map_cons, List.mem_cons, not_or] at h
    show ((t.insert e.1 e.2).insertAll l).get? name = _
    rw [ih h.2, get?_insert, if_neg h.1]

theorem get?_insertAll_of_mem {t : Table α} {l : List (Text × α)} {name : Text} {v : α}
    (hNodup : (l.map Prod.fst).Nodup) (h : (name, v) ∈ l) :
    (t.insertAll l).get? name = some v := by
  induction l generalizing t with
  | nil => cases h
  | cons e l ih =>
    rw [List.map_cons, List.nodup_cons] at hNodup
    show ((t.insert e.1 e.2).insertAll l).get? name = _
    rcases List.mem_cons.mp h with rfl | hMem
    · rw [get?_insertAll_of_not_mem hNodup.1, get?_insert, if_pos rfl]
    · exact ih hNodup.2 hMem

theorem get?_ofList_eq_some_iff {l : List (Text × α)} {name : Text} {v : α}
    (hNodup : (l.map Prod.fst).Nodup) : (ofList l).get? name = some v ↔ (name, v) ∈ l := by
  refine ⟨fun h => ?_, get?_insertAll_of_mem (t := empty) hNodup⟩
  by_cases hName : name ∈ l.map Prod.fst
  · obtain ⟨⟨_, v'⟩, hMem, rfl⟩ := List.mem_map.mp hName
    cases h.symm.trans (get?_insertAll_of_mem (t := empty) hNodup hMem)
    exact hMem
  · cases h.symm.trans (get?_insertAll_of_not_mem (t := empty) hName)

/-! ### A table without a name -/

def erase (t : Table α) (name : Text) : Table α := ⟨t.entries.filter (·.1 != name)⟩

theorem get?_erase_of_ne (t : Table α) {name other : Text} (h : other ≠ name) :
    (t.erase name).get? other = t.get? other := lookup_filter_ne t.entries h

theorem erase_insert_self (t : Table α) (name : Text) (v : α) :
    (t.insert name v).erase name = t.erase name := by
  simp [erase, insert, List.filter_filter]

theorem erase_insert_of_ne (t : Table α) {name other : Text} (h : other ≠ name) (v : α) :
    (t.insert other v).erase name = (t.erase name).insert other v := by
  simp only [erase, insert, List.filter_cons, bne_iff_ne.mpr h, if_true, List.filter_filter,
    Bool.and_comm]

theorem erase_eq_self {t : Table α} {name : Text} (h : name ∉ t.keys) : t.erase name = t := by
  rw [erase, filter_of_not_mem_keys h]

/-! ### Values under a map -/

def map {β : Type} (f : α → β) (t : Table α) : Table β := ⟨t.entries.map fun e => (e.1, f e.2)⟩

section Map

variable {β γ : Type}

theorem get?_map (f : α → β) (t : Table α) (name : Text) :
    (t.map f).get? name = (t.get? name).map f := by
  obtain ⟨entries⟩ := t
  induction entries with
  | nil => rfl
  | cons e entries ih =>
    obtain ⟨key, v⟩ := e
    simp only [get?, map, List.map_cons, List.lookup_cons] at ih ⊢
    cases name == key with
    | true => rfl
    | false => exact ih

theorem map_insert (f : α → β) (t : Table α) (name : Text) (v : α) :
    (t.insert name v).map f = (t.map f).insert name (f v) := by
  simp only [map, insert, List.map_cons, List.filter_map]
  rfl

theorem map_map (f : α → β) (g : β → γ) (t : Table α) : (t.map f).map g = t.map (g ∘ f) := by
  simp only [map, List.map_map]
  rfl

theorem map_id (t : Table α) : t.map id = t :=
  congrArg Table.mk (List.map_id t.entries)

end Map

end NiosBoard.Table
