import NiosBoard.Text.Blank

/-! # Tables keyed by names

A table holds each name at most once. `insert` replaces; `get?_insert` is the whole law.
-/

namespace NiosBoard

/-- Names with a value each, the latest insertion first. -/
structure Table (α : Type) where
  entries : List (Text × α)
  deriving Repr

namespace Table

variable {α : Type}

def empty : Table α := ⟨[]⟩

instance : EmptyCollection (Table α) := ⟨empty⟩

def get? (t : Table α) (name : Text) : Option α := t.entries.lookup name

def contains (t : Table α) (name : Text) : Bool := (t.get? name).isSome

def insert (t : Table α) (name : Text) (value : α) : Table α :=
  ⟨(name, value) :: t.entries.filter (·.1 != name)⟩

def ofList (l : List (Text × α)) : Table α := l.foldl (fun t e => t.insert e.1 e.2) empty

def isEmpty (t : Table α) : Bool := t.entries.isEmpty

@[simp] theorem get?_empty (name : Text) : (empty : Table α).get? name = none := rfl

theorem lookup_filter_ne (l : List (Text × α)) {name other : Text} (h : other ≠ name) :
    (l.filter (·.1 != name)).lookup other = l.lookup other := by
  induction l with
  | nil => rfl
  | cons e l ih =>
    obtain ⟨k, v⟩ := e
    by_cases hk : k = name
    · subst hk
      have hne : (other == k) = false := beq_eq_false_iff_ne.mpr h
      simp [List.lookup_cons, ih, hne]
    · simp [List.lookup_cons, ih, hk]

theorem get?_insert (t : Table α) (name other : Text) (value : α) :
    (t.insert name value).get? other = if other = name then some value else t.get? other := by
  unfold get? insert
  by_cases h : other = name
  · subst h
    simp
  · simp only [List.lookup_cons, if_neg h, beq_eq_false_iff_ne.mpr h]
    exact lookup_filter_ne t.entries h

end Table

end NiosBoard
