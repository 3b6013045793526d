import NiosBoard.Proofs.Text.Operands
import NiosBoard.Text.Quoted

/-! # String literals

A text is written between double quotes with six of its characters escaped and every other one as it
is. Whatever goes over a line, cutting comments, substituting names, splitting operands or reading
the string, then finds the closing quote in the same place.
-/

namespace NiosBoard.Text

/-- Read from this position on, the text is inside literals or one of their quotes. -/
def Covered : Scan → Text → Prop
  | _, [] => True
  | s, c :: rest => s.plain c = false ∧ Covered (s.next c) rest

namespace Covered

variable {s : Scan} {t u : Text}

theorem append (h : Covered s t) (h' : Covered (s.after t) u) : Covered s (t ++ u) := by
  induction t generalizing s with
  | nil => exact h'
  | cons c t ih => exact ⟨h.1, ih h.2 h'⟩

theorem stripCommentFrom_append (h : Covered s t) (u : Text) :
    stripCommentFrom s (t ++ u) = t ++ stripCommentFrom (s.after t) u := by
  induction t generalizing s with
  | nil => rfl
  | cons c t ih =>
    obtain ⟨hPlain, hRest⟩ := h
    rw [List.cons_append, stripCommentFrom, hPlain, Bool.false_and, if_neg Bool.false_ne_true,
      ih hRest, Scan.after_cons, List.cons_append]

theorem substituteFrom_append (f : Text → Option Text) (h : Covered s t) (u : Text) :
    substituteFrom f s false (t ++ u) = t ++ substituteFrom f (s.after t) false u := by
  induction t generalizing s with
  | nil => rfl
  | cons c t ih =>
    obtain ⟨hPlain, hRest⟩ := h
    rw [List.cons_append, substituteFrom, if_pos (by simp [hPlain]), ih hRest, Scan.after_cons,
      List.cons_append]

theorem unsplit_append_iff {depth : Int} (h : Covered s t) (u : Text) :
    Unsplit s depth (t ++ u) ↔ Unsplit (s.after t) depth u := by
  induction t generalizing s with
  | nil => rfl
  | cons c t ih =>
    obtain ⟨hPlain, hRest⟩ := h
    rw [List.cons_append, Unsplit, hPlain, if_neg Bool.false_ne_true, ih hRest, Scan.after_cons]
    simp

theorem unsplit (h : Covered s t) (hClosed : s.after t = .outside) : Unsplit s 0 t := by
  rw [← List.append_nil t, h.unsplit_append_iff]
  exact ⟨hClosed, rfl⟩

end Covered

/-! ### Writing a string -/

/-- A character as it is written inside a string literal. -/
def quotedChar (c : Char) : Text :=
  match c with
  | '\\' => ['\\', '\\']
  | '"' => ['\\', '"']
  | '\n' => ['\\', 'n']
  | '\r' => ['\\', 'r']
  | '\t' => ['\\', 't']
  | '\x00' => ['\\', '0']
  | c => [c]

/-- The text as a string literal. -/
def stringLiteral (t : Text) : Text := '"' :: (t.flatMap quotedChar ++ ['"'])

theorem covered_quotedChar (c : Char) :
    Covered (.inside '"') (quotedChar c) ∧
      (Scan.inside '"').after (quotedChar c) = .inside '"' := by
  unfold quotedChar
  split
  case h_7 hSlash hQuote _ _ _ _ =>
    refine ⟨⟨rfl, trivial⟩, ?_⟩
    simp only [Scan.after_cons, Scan.after_nil, Scan.next, beq_iff_eq, if_neg hSlash, if_neg hQuote]
  all_goals exact ⟨⟨rfl, rfl, trivial⟩, rfl⟩

theorem covered_flatMap_quotedChar (t : Text) :
    Covered (.inside '"') (t.flatMap quotedChar) ∧
      (Scan.inside '"').after (t.flatMap quotedChar) = .inside '"' := by
  induction t with
  | nil => exact ⟨trivial, rfl⟩
  | cons c t ih =>
    obtain ⟨hChar, hAfter⟩ := covered_quotedChar c
    rw [List.flatMap_cons, Scan.after_append, hAfter]
    refine ⟨hChar.append ?_, ih.2⟩
    rw [hAfter]
    exact ih.1

theorem covered_stringLiteral (t : Text) : Covered .outside (stringLiteral t) := by
  obtain ⟨hBody, hAfter⟩ := covered_flatMap_quotedChar t
  refine ⟨rfl, hBody.append ?_⟩
  rw [hAfter]
  exact ⟨rfl, trivial⟩

theorem after_stringLiteral (t : Text) : Scan.outside.after (stringLiteral t) = .outside := by
  rw [stringLiteral, Scan.after_cons, Scan.after_append]
  exact congrArg (Scan.after · ['"']) (covered_flatMap_quotedChar t).2

theorem quotedRest?_quotedChar (c : Char) (rest : Text) :
    quotedRest? (quotedChar c ++ rest) =
      (quotedRest? rest).map fun read => (c :: read.1, read.2) := by
  unfold quotedChar
  split
  case h_7 hSlash hQuote _ _ _ _ =>
    rw [List.singleton_append, quotedRest?]
    · cases quotedRest? rest <;> rfl
    · exact hQuote
    · exact fun e r hc => absurd hc hSlash
    · exact fun hc => absurd hc hSlash
  all_goals
    simp only [List.cons_append, List.nil_append, quotedRest?, unescape?]
    cases quotedRest? rest <;> rfl

theorem quotedRest?_append (t rest : Text) :
    quotedRest? (t.flatMap quotedChar ++ '"' :: rest) = some (t, rest) := by
  induction t with
  | nil => rfl
  | cons c t ih =>
    rw [List.flatMap_cons, List.append_assoc, quotedRest?_quotedChar, ih]
    rfl

/-- Reading a string literal gives the text that was written. -/
theorem quoted?_stringLiteral (t rest : Text) :
    quoted? (stringLiteral t ++ rest) = some (t, rest) := by
  rw [stringLiteral, List.cons_append, List.append_assoc]
  exact quotedRest?_append t rest

theorem notMem_stringLiteral {c : Char} (h : c = '\n' ∨ c = '\r') (t : Text) :
    c ∉ stringLiteral t := by
  have hChar : ∀ x, c ∉ quotedChar x := by
    intro x
    unfold quotedChar
    split
    case h_7 _ _ hNewline hReturn _ _ =>
      rw [List.mem_singleton]
      rintro rfl
      rcases h with h | h
      · exact hNewline h
      · exact hReturn h
    all_goals rcases h with rfl | rfl <;> decide
  have hQuote : c ≠ '"' := by
    rcases h with rfl | rfl <;> decide
  simp only [stringLiteral, List.mem_cons, List.mem_append, List.mem_flatMap, List.not_mem_nil,
    or_false, not_or, not_exists, not_and]
  exact ⟨hQuote, fun x _ => hChar x, hQuote⟩

theorem getLast?_stringLiteral (t : Text) : (stringLiteral t).getLast? = some '"' := by
  rw [stringLiteral, ← List.cons_append, List.getLast?_concat]

theorem isPiece_stringLiteral (t : Text) : IsPiece (stringLiteral t) where
  nonempty := List.cons_ne_nil _ _
  trimmed := by
    apply trim_eq_self
    · rintro c ⟨⟩
      rfl
    · intro c hc
      rw [getLast?_stringLiteral] at hc
      cases hc
      rfl
  unsplit := (covered_stringLiteral t).unsplit (after_stringLiteral t)

end NiosBoard.Text
