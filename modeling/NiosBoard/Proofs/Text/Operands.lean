import NiosBoard.Proofs.Text.Plain
import NiosBoard.Text.Operands

/-! # Operand lists taken apart

A piece that no comma splits, and that ends outside every literal and parenthesis, comes out of a
list as it went in.
-/

namespace NiosBoard.Text

/-- Read from this position on, the text has no comma that separates operands and ends where one
could. -/
def Unsplit : Scan → Int → Text → Prop
  | s, depth, [] => s = .outside ∧ depth = 0
  | s, depth, c :: rest =>
    (s.plain c && c == ',' && depth == 0) = false ∧
      Unsplit (s.next c) (if s.plain c then depthAfter depth c else depth) rest

theorem Unsplit.piecesFrom_eq {s : Scan} {depth : Int} {t : Text} (h : Unsplit s depth t) :
    piecesFrom s depth t = [t] := by
  induction t generalizing s depth with
  | nil => rfl
  | cons c rest ih =>
    obtain ⟨hComma, hRest⟩ := h
    rw [piecesFrom, if_neg (by simp [hComma]), ih hRest]

theorem Unsplit.piecesFrom_append_comma {s : Scan} {depth : Int} {t : Text}
    (h : Unsplit s depth t) (rest : Text) :
    piecesFrom s depth (t ++ ',' :: rest) = t :: piecesFrom .outside 0 rest := by
  induction t generalizing s depth with
  | nil =>
    obtain ⟨rfl, rfl⟩ := h
    rw [List.nil_append, piecesFrom, if_pos (by decide)]
  | cons c t ih =>
    obtain ⟨hComma, hRest⟩ := h
    rw [List.cons_append, piecesFrom, if_neg (by simp [hComma]), ih hRest]

theorem trim_of_mem_splitOperands {t u : Text} (h : u ∈ splitOperands t) : trim u = u := by
  unfold splitOperands at h
  split at h
  · cases h
  · obtain ⟨piece, -, rfl⟩ := List.mem_map.mp h
    exact trim_trim piece

/-- An operand that lists are taken apart into: it has no blanks around it and is not cut. -/
structure IsPiece (t : Text) : Prop where
  nonempty : t ≠ []
  trimmed : trim t = t
  unsplit : Unsplit .outside 0 t

/-- The character neither quotes nor separates nor nests. -/
def IsPlain (c : Char) : Prop := isQuote c = false ∧ c ≠ ',' ∧ c ≠ '(' ∧ c ≠ ')'

theorem isPlain_of_class {p : Char → Bool} {c : Char} (h : p c = true)
    (hOut : ['"', '\'', ',', '(', ')'].any p = false) : IsPlain c := by
  have hne : ∀ x ∈ ['"', '\'', ',', '(', ')'], c ≠ x := by
    rintro x hx rfl
    exact List.any_eq_false.mp hOut c hx h
  simp only [List.forall_mem_cons] at hne
  obtain ⟨hDouble, hSingle, hComma, hOpen, hClose, -⟩ := hne
  exact ⟨by simp [isQuote, hDouble, hSingle], hComma, hOpen, hClose⟩

theorem isPlain_of_isAlphanum {c : Char} (h : c.isAlphanum = true) : IsPlain c :=
  isPlain_of_class h (by decide)

theorem isPlain_of_isBlank {c : Char} (h : isBlank c = true) : IsPlain c :=
  isPlain_of_class h (by decide)

theorem unsplit_append_iff {depth : Int} {t u : Text} (h : ∀ c ∈ t, IsPlain c) :
    Unsplit .outside depth (t ++ u) ↔ Unsplit .outside depth u := by
  induction t with
  | nil => rfl
  | cons c t ih =>
    obtain ⟨hQuote, hComma, hOpen, hClose⟩ := h c List.mem_cons_self
    rw [List.cons_append, Unsplit]
    simp only [Scan.plain, Scan.next, hQuote, depthAfter, beq_iff_eq, hOpen, hClose]
    simp [ih fun x hx => h x (List.mem_cons_of_mem c hx), hComma]

theorem unsplit_of_forall {t : Text} (h : ∀ c ∈ t, IsPlain c) : Unsplit .outside 0 t := by
  rw [← List.append_nil t, unsplit_append_iff h]
  exact ⟨rfl, rfl⟩

theorem unsplit_memoryOperand {offset base : Text} (hOffset : ∀ c ∈ offset, IsPlain c)
    (hBase : ∀ c ∈ base, IsPlain c) :
    Unsplit .outside 0 (offset ++ '(' :: base ++ [')']) := by
  rw [List.append_assoc, unsplit_append_iff hOffset]
  refine ⟨rfl, ?_⟩
  -- inside the parenthesis, which the last character closes
  show Unsplit .outside 1 (base ++ [')'])
  rw [unsplit_append_iff hBase]
  exact ⟨rfl, rfl, rfl⟩

end NiosBoard.Text
