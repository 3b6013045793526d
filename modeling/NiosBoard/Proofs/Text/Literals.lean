import NiosBoard.Proofs.Text.StringLiteral

/-! # Literals of a line

A literal runs from a quote to the next quote of its kind that no backslash escapes, or to the end of
the line when there is none. A text that starts with a quote starts with one literal and no other,
and no reader of lines looks at what is inside it.
-/

namespace NiosBoard.Text

/-- The inside of a literal between such quotes. A backslash goes with the character after it. -/
inductive LiteralBody (quote : Char) : Text → Prop
  | nil : LiteralBody quote []
  | char {c : Char} {t : Text} (hSlash : c ≠ '\\') (hQuote : c ≠ quote) (h : LiteralBody quote t) :
      LiteralBody quote (c :: t)
  | escape {c : Char} {t : Text} (h : LiteralBody quote t) : LiteralBody quote ('\\' :: c :: t)

/-- A literal with both of its quotes. -/
def ClosedLiteral (t : Text) : Prop :=
  ∃ quote body, isQuote quote = true ∧ LiteralBody quote body ∧ t = quote :: (body ++ [quote])

/-- A literal without its second quote. A backslash at its very end escapes nothing. -/
def OpenLiteral (t : Text) : Prop :=
  ∃ quote body, isQuote quote = true ∧ LiteralBody quote body ∧
    (t = quote :: body ∨ t = quote :: (body ++ ['\\']))

theorem ne_backslash_of_isQuote {c : Char} (h : isQuote c = true) : c ≠ '\\' := by
  rintro rfl
  cases h

/-! ### Where a literal ends -/

/-- Up to a quote or to the end, whatever text comes. -/
theorem literalBody_or (quote : Char) : (t : Text) →
    (∃ body after, LiteralBody quote body ∧ t = body ++ quote :: after) ∨ LiteralBody quote t ∨
      ∃ body, LiteralBody quote body ∧ t = body ++ ['\\']
  | [] => .inr (.inl .nil)
  | [c] => by
    by_cases hQuote : c = quote
    · exact .inl ⟨[], [], .nil, by rw [hQuote]; rfl⟩
    by_cases hSlash : c = '\\'
    · exact .inr (.inr ⟨[], .nil, by rw [hSlash]; rfl⟩)
    · exact .inr (.inl (.char hSlash hQuote .nil))
  | c :: d :: t => by
    by_cases hQuote : c = quote
    · exact .inl ⟨[], d :: t, .nil, by rw [hQuote]; rfl⟩
    by_cases hSlash : c = '\\'
    · subst hSlash
      rcases literalBody_or quote t with ⟨body, after, hBody, rfl⟩ | hBody | ⟨body, hBody, rfl⟩
      · exact .inl ⟨_, after, hBody.escape, rfl⟩
      · exact .inr (.inl hBody.escape)
      · exact .inr (.inr ⟨_, hBody.escape, rfl⟩)
    · rcases literalBody_or quote (d :: t) with ⟨body, after, hBody, hText⟩ | hBody | ⟨body, hBody, hText⟩
      · exact .inl ⟨_, after, hBody.char hSlash hQuote, by rw [hText]; rfl⟩
      · exact .inr (.inl (hBody.char hSlash hQuote))
      · exact .inr (.inr ⟨_, hBody.char hSlash hQuote, by rw [hText]; rfl⟩)

theorem closedLiteral_or_openLiteral {quote : Char} (h : isQuote quote = true) (t : Text) :
    (∃ l after, ClosedLiteral l ∧ quote :: t = l ++ after) ∨ OpenLiteral (quote :: t) := by
  rcases literalBody_or quote t with ⟨body, after, hBody, rfl⟩ | hBody | ⟨body, hBody, rfl⟩
  · exact .inl ⟨_, after, ⟨quote, body, h, hBody, rfl⟩, by simp⟩
  · exact .inr ⟨quote, _, h, hBody, .inl rfl⟩
  · exact .inr ⟨quote, body, h, hBody, .inr rfl⟩

/-- The inside of a literal does not go past a quote that closes it. -/
theorem LiteralBody.exists_append {quote : Char} (hq : quote ≠ '\\') {body body' t u : Text}
    (h : LiteralBody quote body) (h' : LiteralBody quote body')
    (hEq : body ++ quote :: t = body' ++ u) :
    ∃ w, LiteralBody quote w ∧ body = body' ++ w ∧ u = w ++ quote :: t := by
  induction h' generalizing body with
  | nil => exact ⟨body, h, rfl, hEq.symm⟩
  | char hSlash hQuote _ ih =>
    cases h with
    | nil => exact absurd (List.cons.inj hEq).1.symm hQuote
    | char _ _ h =>
      obtain ⟨rfl, hRest⟩ := List.cons.inj hEq
      obtain ⟨w, hw, rfl, hu⟩ := ih h hRest
      exact ⟨w, hw, rfl, hu⟩
    | escape h => exact absurd (List.cons.inj hEq).1.symm hSlash
  | escape _ ih =>
    cases h with
    | nil => exact absurd (List.cons.inj hEq).1 hq
    | char hSlash _ h => exact absurd (List.cons.inj hEq).1 hSlash
    | escape h =>
      obtain ⟨rfl, hRest⟩ := List.cons.inj (List.cons.inj hEq).2
      obtain ⟨w, hw, rfl, hu⟩ := ih h hRest
      exact ⟨w, hw, rfl, hu⟩

theorem ClosedLiteral.append_inj {l l' t t' : Text} (h : ClosedLiteral l) (h' : ClosedLiteral l')
    (hEq : l ++ t = l' ++ t') : l = l' ∧ t = t' := by
  obtain ⟨quote, body, hQuote, hBody, rfl⟩ := h
  obtain ⟨quote', body', -, hBody', rfl⟩ := h'
  simp only [List.cons_append, List.append_assoc, List.nil_append, List.cons.injEq] at hEq
  obtain ⟨rfl, hEq⟩ := hEq
  obtain ⟨w, hw, rfl, hRest⟩ :=
    hBody.exists_append (ne_backslash_of_isQuote hQuote) hBody' hEq
  cases hw with
  | nil => exact ⟨by rw [List.append_nil], (List.cons.inj hRest).2.symm⟩
  | char _ hNe => exact absurd (List.cons.inj hRest).1.symm hNe
  | escape => exact absurd (List.cons.inj hRest).1 (ne_backslash_of_isQuote hQuote)

theorem ClosedLiteral.append_ne_openLiteral {l t l' : Text} (h : ClosedLiteral l)
    (h' : OpenLiteral l') : l ++ t ≠ l' := by
  obtain ⟨quote, body, hQuote, hBody, rfl⟩ := h
  obtain ⟨quote', body', -, hBody', hText⟩ := h'
  have hq := ne_backslash_of_isQuote hQuote
  intro hEq
  rw [List.cons_append, List.append_assoc, List.singleton_append] at hEq
  rcases hText with rfl | rfl
  · obtain ⟨rfl, hInside⟩ := List.cons.inj hEq
    obtain ⟨w, -, -, hRest⟩ := hBody.exists_append hq hBody' (hInside.trans (List.append_nil _).symm)
    exact List.append_ne_nil_of_right_ne_nil w (List.cons_ne_nil _ _) hRest.symm
  · obtain ⟨rfl, hInside⟩ := List.cons.inj hEq
    obtain ⟨w, -, -, hRest⟩ := hBody.exists_append hq hBody' hInside
    cases w with
    | nil => exact hq (List.cons.inj hRest).1.symm
    | cons c w =>
      exact List.append_ne_nil_of_right_ne_nil w (List.cons_ne_nil _ _) (List.cons.inj hRest).2.symm

/-! ### Literals under the scan -/

theorem LiteralBody.covered {quote : Char} {body : Text} (h : LiteralBody quote body) :
    Covered (.inside quote) body ∧ (Scan.inside quote).after body = .inside quote := by
  induction h with
  | nil => exact ⟨trivial, rfl⟩
  | char hSlash hQuote _ ih =>
    simp only [Covered, Scan.plain, Scan.after_cons, Scan.next, beq_iff_eq, hSlash, hQuote, if_false]
    exact ⟨⟨trivial, ih.1⟩, ih.2⟩
  | escape _ ih => exact ⟨⟨rfl, rfl, ih.1⟩, ih.2⟩

theorem ClosedLiteral.covered {l : Text} (h : ClosedLiteral l) :
    Covered .outside l ∧ Scan.outside.after l = .outside := by
  obtain ⟨quote, body, hQuote, hBody, rfl⟩ := h
  have hq := ne_backslash_of_isQuote hQuote
  obtain ⟨hCovered, hAfter⟩ := hBody.covered
  have hOpen : Scan.outside.next quote = .inside quote := by simp [Scan.next, hQuote]
  have hClose : (Scan.inside quote).next quote = .outside := by simp [Scan.next, hq]
  refine ⟨⟨by simp [Scan.plain, hQuote], ?_⟩, ?_⟩
  · rw [hOpen]
    refine hCovered.append ?_
    rw [hAfter]
    exact ⟨rfl, trivial⟩
  · rw [Scan.after_cons, Scan.after_append, hOpen, hAfter, Scan.after_cons, hClose, Scan.after_nil]

theorem OpenLiteral.covered {l : Text} (h : OpenLiteral l) : Covered .outside l := by
  obtain ⟨quote, body, hQuote, hBody, hText⟩ := h
  obtain ⟨hCovered, hAfter⟩ := hBody.covered
  have hOpen : Scan.outside.next quote = .inside quote := by simp [Scan.next, hQuote]
  rcases hText with rfl | rfl
  · refine ⟨by simp [Scan.plain, hQuote], ?_⟩
    rwa [hOpen]
  · refine ⟨by simp [Scan.plain, hQuote], ?_⟩
    rw [hOpen]
    refine hCovered.append ?_
    rw [hAfter]
    exact ⟨rfl, trivial⟩

end NiosBoard.Text
