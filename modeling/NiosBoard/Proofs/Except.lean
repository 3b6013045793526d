import Mathlib.Data.List.Forall2

/-! # Computations that may fail

What a success of a composed computation says about its parts.
-/

namespace NiosBoard

variable {ε α β : Type}

theorem bind_eq_ok_iff {x : Except ε α} {f : α → Except ε β} {b : β} :
    (x >>= f) = .ok b ↔ ∃ a, x = .ok a ∧ f a = .ok b := by
  cases x <;> simp [bind, Except.bind]

theorem bind_ok_eq_ok_iff {x : Except ε α} {f : α → β} {b : β} :
    (x >>= fun a => .ok (f a)) = .ok b ↔ ∃ a, x = .ok a ∧ b = f a := by
  rw [bind_eq_ok_iff]
  constructor
  · rintro ⟨a, hx, ⟨⟩⟩
    exact ⟨a, hx, rfl⟩
  · rintro ⟨a, hx, rfl⟩
    exact ⟨a, hx, rfl⟩

theorem bind_congr_of_ok {x : Except ε α} {f g : α → Except ε β}
    (h : ∀ a, x = .ok a → f a = g a) : x >>= f = x >>= g := by
  cases x with
  | ok a => exact h a rfl
  | error e => rfl

theorem exists_bind_error {x : Except ε α} {f : α → Except ε β}
    (hf : ∀ a, ∃ e, f a = .error e) : ∃ e, (x >>= f) = .error e := by
  cases x with
  | error e => exact ⟨e, rfl⟩
  | ok a => exact hf a

theorem bind_eq_error_iff {x : Except ε α} {f : α → Except ε β} {e : ε} :
    (x >>= f) = .error e ↔ x = .error e ∨ ∃ a, x = .ok a ∧ f a = .error e := by
  cases x <;> simp [bind, Except.bind]

theorem toOption_eq_some_iff {x : Except ε α} {a : α} : x.toOption = some a ↔ x = .ok a := by
  cases x <;> simp [Except.toOption]

theorem exists_ok_of_map_eq {x : Except ε α} {f : α → β} {b : β}
    (h : x.toOption.map f = some b) : ∃ a, x = .ok a ∧ f a = b := by
  cases x with
  | ok a => exact ⟨a, rfl, Option.some.inj h⟩
  | error e => cases h

theorem mapM_eq_ok_iff {f : α → Except ε β} {l : List α} {r : List β} :
    l.mapM f = .ok r ↔ List.Forall₂ (fun a b => f a = .ok b) l r := by
  induction l generalizing r with
  | nil => simp [pure, Except.pure, eq_comm]
  | cons a l ih =>
    rw [List.mapM_cons, bind_eq_ok_iff, List.forall₂_cons_left_iff]
    constructor
    · rintro ⟨b, hb, h⟩
      obtain ⟨bs, hbs, h⟩ := bind_eq_ok_iff.mp h
      cases h
      exact ⟨b, bs, hb, ih.mp hbs, rfl⟩
    · rintro ⟨b, bs, hb, hbs, rfl⟩
      exact ⟨b, hb, bind_eq_ok_iff.mpr ⟨bs, ih.mpr hbs, rfl⟩⟩

theorem exists_of_mapM_error {f : α → Except ε β} {l : List α} {e : ε}
    (h : l.mapM f = .error e) : ∃ a, f a = .error e := by
  induction l with
  | nil => cases h
  | cons a l ih =>
    rw [List.mapM_cons] at h
    rcases bind_eq_error_iff.mp h with ha | ⟨b, -, h⟩
    · exact ⟨a, ha⟩
    · rcases bind_eq_error_iff.mp h with h | ⟨bs, -, ⟨⟩⟩
      exact ih h

theorem exists_of_foldlM_error {f : β → α → Except ε β} {l : List α} {b : β} {e : ε}
    (h : l.foldlM f b = .error e) : ∃ b' a, f b' a = .error e := by
  induction l generalizing b with
  | nil => cases h
  | cons a l ih =>
    rw [List.foldlM_cons] at h
    rcases bind_eq_error_iff.mp h with ha | ⟨b', -, h⟩
    · exact ⟨b, a, ha⟩
    · exact ih h

theorem mapM_congr_of_mem {f g : α → Except ε β} {l : List α} (h : ∀ a ∈ l, f a = g a) :
    l.mapM f = l.mapM g := by
  induction l with
  | nil => rfl
  | cons a l ih =>
    rw [List.forall_mem_cons] at h
    rw [List.mapM_cons, List.mapM_cons, h.1, ih h.2]

/-- A map that goes through the second computation goes through both. -/
theorem map_bind_of_ok {α' β' : Type} {x : Except ε α} {k : α → Except ε β}
    {k' : α' → Except ε β'} {g : α → α'} {g' : β → β'}
    (h : ∀ a, x = .ok a → k' (g a) = g' <$> k a) : (g <$> x) >>= k' = g' <$> (x >>= k) := by
  cases x with
  | ok a => exact h a rfl
  | error e => rfl

/-- A map that goes through every step of a fold goes through the fold. -/
theorem foldlM_map_of_mem {β' : Type} {step : β → α → Except ε β} {step' : β' → α → Except ε β'}
    {g : β → β'} {l : List α} (h : ∀ b, ∀ a ∈ l, step' (g b) a = g <$> step b a) (b : β) :
    l.foldlM step' (g b) = g <$> l.foldlM step b := by
  induction l generalizing b with
  | nil => rfl
  | cons a l ih =>
    rw [List.foldlM_cons, List.foldlM_cons, h b a List.mem_cons_self]
    exact map_bind_of_ok fun b' _ => ih (fun b a ha => h b a (List.mem_cons_of_mem _ ha)) b'

/-- A relation that every step keeps holds between the results of two folds. -/
theorem foldlM_related {γ : Type} {R : γ → β → Prop} {f : β → α → Except ε β} {g : γ → α → γ}
    (step : ∀ c b a b', R c b → f b a = .ok b' → R (g c a) b') {l : List α} {c : γ} {b b' : β}
    (hR : R c b) (h : l.foldlM f b = .ok b') : R (l.foldl g c) b' := by
  induction l generalizing c b with
  | nil =>
    cases h
    exact hR
  | cons a l ih =>
    rw [List.foldlM_cons] at h
    obtain ⟨b₁, hb, h⟩ := bind_eq_ok_iff.mp h
    exact ih (step c b a b₁ hR hb) h

theorem foldlM_preserves {P : β → Prop} {f : β → α → Except ε β}
    (step : ∀ a b b', P b → f b a = .ok b' → P b') {l : List α} {b b' : β}
    (hP : P b) (h : l.foldlM f b = .ok b') : P b' :=
  foldlM_related (R := fun (_ : Unit) b => P b) (g := fun u _ => u) (c := ())
    (fun _ b a b' => step a b b') hP h

/-! ### Two computations in step -/

/-- Both succeed, with related results, or both fail, with related errors. -/
inductive Alike {ε α β : Type} (E : ε → ε → Prop) (R : α → β → Prop) :
    Except ε α → Except ε β → Prop
  | ok {a : α} {b : β} (h : R a b) : Alike E R (.ok a) (.ok b)
  | error {e e' : ε} (h : E e e') : Alike E R (.error e) (.error e')

namespace Alike

variable {ε α β γ δ : Type} {E : ε → ε → Prop} {R : α → β → Prop} {S : γ → δ → Prop}

theorem refl {R : α → α → Prop} (hE : ∀ e, E e e) (hR : ∀ a, R a a) (x : Except ε α) :
    Alike E R x x := by
  cases x with
  | ok a => exact .ok (hR a)
  | error e => exact .error (hE e)

theorem bind {x : Except ε α} {x' : Except ε β} {f : α → Except ε γ} {f' : β → Except ε δ}
    (h : Alike E R x x') (hf : ∀ a b, x = .ok a → R a b → Alike E S (f a) (f' b)) :
    Alike E S (x >>= f) (x' >>= f') := by
  cases h with
  | ok h => exact hf _ _ rfl h
  | error h => exact .error h

/-- Steps that keep results related, one for each element of a list. -/
theorem foldlM {f : α → γ → Except ε α} {f' : β → γ → Except ε β}
    (h : ∀ a b c, R a b → Alike E R (f a c) (f' b c)) (l : List γ) {a : α} {b : β} (hR : R a b) :
    Alike E R (l.foldlM f a) (l.foldlM f' b) := by
  induction l generalizing a b with
  | nil => exact .ok hR
  | cons c l ih =>
    rw [List.foldlM_cons, List.foldlM_cons]
    exact (h a b c hR).bind fun a b _ hR => ih hR

/-- Where any two errors are related, it is enough that one computation succeeds if the other
does. -/
theorem of_ok {x : Except ε α} {x' : Except ε β} (h : ∀ a, x = .ok a → ∃ b, x' = .ok b ∧ R a b)
    (h' : ∀ b, x' = .ok b → ∃ a, x = .ok a) : Alike (fun _ _ => True) R x x' := by
  cases hx : x with
  | ok a =>
    obtain ⟨b, hb, hR⟩ := h a hx
    rw [hb]
    exact .ok hR
  | error e =>
    cases hx' : x' with
    | ok b =>
      obtain ⟨a, ha⟩ := h' b hx'
      cases hx.symm.trans ha
    | error e' => exact .error trivial

end Alike

end NiosBoard
