import NiosBoard.Proofs.Expression.Literal
import NiosBoard.Proofs.Text.Operands

/-! # Expressions inside other texts

A relation for what scanning a text gives, token by token. With it an expression can be put between
parentheses, where its tokens end with the group, and a text that has a value is seen to be one
operand, whatever its character literals hold.
-/

namespace NiosBoard

open Text

namespace Token

/-- The text consists of these tokens, with blanks between them. -/
inductive Scans : Text → List Token → Prop
  | nil : Scans [] []
  | blank {c : Char} {rest : Text} {ts : List Token} (hBlank : isBlank c = true)
      (h : Scans rest ts) : Scans (c :: rest) ts
  | number {c : Char} {rest : Text} {v : Value} {ts : List Token} (hDigit : c.isDigit = true)
      (hLiteral : literal? (c :: rest.takeWhile Char.isAlphanum) = some v)
      (h : Scans (rest.dropWhile Char.isAlphanum) ts) : Scans (c :: rest) (.num v :: ts)
  | identifier {c : Char} {rest : Text} {ts : List Token} (hStart : isIdentStart c = true)
      (h : Scans (rest.dropWhile isIdentChar) ts) :
      Scans (c :: rest) (.ident (c :: rest.takeWhile isIdentChar) :: ts)
  | character {rest after : Text} {v : Value} {ts : List Token}
      (hChar : charRest? rest = some (v, after)) (h : Scans after ts) :
      Scans ('\'' :: rest) (.num v :: ts)
  | opening {rest : Text} {ts : List Token} (h : Scans rest ts) : Scans ('(' :: rest) (.open :: ts)
  | closing {rest : Text} {ts : List Token} (h : Scans rest ts) : Scans (')' :: rest) (.close :: ts)
  | operator {t after : Text} {k : Token} {ts : List Token} (hOperator : operator? t = some (k, after))
      (h : Scans after ts) : Scans t (k :: ts)

theorem of_operator? {c : Char} {rest after : Text} {k : Token}
    (h : operator? (c :: rest) = some (k, after)) :
    isBlank c = false ∧ c.isDigit = false ∧ isIdentStart c = false ∧ (c == '\'') = false ∧
      (c == '(') = false ∧ (c == ')') = false := by
  -- one case for each spelling of an operator, the last one for all other texts
  unfold operator? at h
  split at h
  case h_13 => cases h
  all_goals
    next hText =>
    cases hText
    decide

theorem isBlank_of_isIdentStart {c : Char} (h : isIdentStart c = true) : isBlank c = false := by
  simp only [isIdentStart, Bool.or_eq_true, beq_iff_eq] at h
  rcases h with ((h | rfl) | rfl) | rfl
  · exact isBlank_of_isAlphanum (by simp [Char.isAlphanum, h])
  all_goals decide

theorem Scans.scan_eq {t : Text} {ts : List Token} (h : Scans t ts) : scan t = .ok ts := by
  induction h with
  | nil => rw [scan]
  | blank hBlank _ ih => rw [scan, if_pos hBlank, ih]
  | number hDigit hLiteral _ ih =>
    rw [scan, if_neg (by simp [isBlank_of_isAlphanum (isAlphanum_of_isDigit hDigit)]),
      if_pos hDigit, hLiteral, ih]
    rfl
  | identifier hStart _ ih =>
    rw [scan, if_neg (by simp [isBlank_of_isIdentStart hStart]),
      if_neg (by simp [isDigit_of_isIdentStart hStart]), if_pos hStart, ih]
    rfl
  | character hChar _ ih =>
    rw [scan, if_neg (by decide), if_neg (by decide), if_neg (by decide), if_pos (by decide)]
    split
    · next hNone => cases hNone.symm.trans hChar
    · next hSome =>
      cases hSome.symm.trans hChar
      rw [ih]
      rfl
  | opening _ ih =>
    rw [scan, if_neg (by decide), if_neg (by decide), if_neg (by decide), if_neg (by decide),
      if_pos (by decide), ih]
    rfl
  | closing _ ih =>
    rw [scan, if_neg (by decide), if_neg (by decide), if_neg (by decide), if_neg (by decide),
      if_neg (by decide), if_pos (by decide), ih]
    rfl
  | @operator t after k ts hOperator _ ih =>
    cases t with
    | nil => cases hOperator
    | cons c rest =>
      obtain ⟨hBlank, hDigit, hStart, hQuote, hOpen, hClose⟩ := of_operator? hOperator
      rw [scan, hBlank, hDigit, hStart, hQuote, hOpen, hClose]
      simp only [Bool.false_eq_true, if_false]
      split
      · next hNone => cases hNone.symm.trans hOperator
      · next hSome =>
        cases hSome.symm.trans hOperator
        rw [ih]
        rfl

theorem map_eq_ok_iff {ε α β : Type} {f : α → β} {x : Except ε α} {b : β} :
    f <$> x = .ok b ↔ ∃ a, x = .ok a ∧ f a = b := by
  cases x <;> simp [Functor.map, Except.map]

theorem scans_of_scan {t : Text} {ts : List Token} (h : scan t = .ok ts) : Scans t ts := by
  -- along the branches of the scanner; those that report an error contradict `h`
  induction t using scan.induct generalizing ts with
  | case1 =>
    rw [scan] at h
    cases h
    exact .nil
  | case2 c rest hBlank ih =>
    rw [scan, if_pos hBlank] at h
    exact .blank hBlank (ih h)
  | case3 c rest hBlank hDigit hLiteral =>
    rw [scan, if_neg hBlank, if_pos hDigit, hLiteral] at h
    cases h
  | case4 c rest hBlank hDigit v hLiteral ih =>
    rw [scan, if_neg hBlank, if_pos hDigit, hLiteral] at h
    obtain ⟨us, hRest, rfl⟩ := map_eq_ok_iff.mp h
    exact .number hDigit hLiteral (ih hRest)
  | case5 c rest hBlank hDigit hStart ih =>
    rw [scan, if_neg hBlank, if_neg hDigit, if_pos hStart] at h
    obtain ⟨us, hRest, rfl⟩ := map_eq_ok_iff.mp h
    exact .identifier hStart (ih hRest)
  | case6 c rest hBlank hDigit hStart hQuote hNone =>
    rw [scan, if_neg hBlank, if_neg hDigit, if_neg hStart, if_pos hQuote] at h
    split at h
    · cases h
    · next hSome => cases hNone.symm.trans hSome
  | case7 c rest hBlank hDigit hStart hQuote v after hChar ih =>
    rw [scan, if_neg hBlank, if_neg hDigit, if_neg hStart, if_pos hQuote] at h
    split at h
    · cases h
    · next hSome =>
      cases hChar.symm.trans hSome
      obtain ⟨us, hRest, rfl⟩ := map_eq_ok_iff.mp h
      cases beq_iff_eq.mp hQuote
      exact .character hChar (ih hRest)
  | case8 c rest hBlank hDigit hStart hQuote hOpen ih =>
    rw [scan, if_neg hBlank, if_neg hDigit, if_neg hStart, if_neg hQuote, if_pos hOpen] at h
    obtain ⟨us, hRest, rfl⟩ := map_eq_ok_iff.mp h
    cases beq_iff_eq.mp hOpen
    exact .opening (ih hRest)
  | case9 c rest hBlank hDigit hStart hQuote hOpen hClose ih =>
    rw [scan, if_neg hBlank, if_neg hDigit, if_neg hStart, if_neg hQuote, if_neg hOpen,
      if_pos hClose] at h
    obtain ⟨us, hRest, rfl⟩ := map_eq_ok_iff.mp h
    cases beq_iff_eq.mp hClose
    exact .closing (ih hRest)
  | case10 c rest hBlank hDigit hStart hQuote hOpen hClose hNone =>
    rw [scan, if_neg hBlank, if_neg hDigit, if_neg hStart, if_neg hQuote, if_neg hOpen,
      if_neg hClose] at h
    split at h
    · cases h
    · next hSome => cases hNone.symm.trans hSome
  | case11 c rest hBlank hDigit hStart hQuote hOpen hClose k after hOperator ih =>
    rw [scan, if_neg hBlank, if_neg hDigit, if_neg hStart, if_neg hQuote, if_neg hOpen,
      if_neg hClose] at h
    split at h
    · cases h
    · next hSome =>
      cases hOperator.symm.trans hSome
      obtain ⟨us, hRest, rfl⟩ := map_eq_ok_iff.mp h
      exact .operator hOperator (ih hRest)

/-! ### Before a closing parenthesis -/

theorem takeWhile_append_cons {p : Char → Bool} {c : Char} (hc : p c = false) (t u : Text) :
    (t ++ c :: u).takeWhile p = t.takeWhile p ∧
      (t ++ c :: u).dropWhile p = t.dropWhile p ++ c :: u := by
  induction t with
  | nil => exact takeWhile_append_eq (by simp) (by rintro d ⟨⟩; exact hc)
  | cons d t ih =>
    rw [List.cons_append]
    by_cases hd : p d = true
    · simp only [List.takeWhile_cons_of_pos hd, List.dropWhile_cons_of_pos hd, ih, and_self]
    · simp only [List.takeWhile_cons_of_neg hd, List.dropWhile_cons_of_neg hd, List.cons_append,
        and_self]

theorem charRest?_append {t rest : Text} {v : Value} (h : charRest? t = some (v, rest)) (u : Text) :
    charRest? (t ++ u) = some (v, rest ++ u) := by
  unfold charRest? at h
  split at h
  · obtain ⟨c, hc, hEq⟩ := Option.map_eq_some_iff.mp h
    cases hEq
    rw [List.cons_append, List.cons_append, List.cons_append, charRest?, hc]
    rfl
  · cases h
  · cases h
  · next hSlash hQuote =>
    cases h
    rw [List.cons_append, List.cons_append, charRest?]
    · exact fun _ hc _ => hSlash hc
    · exact hSlash
    · exact hQuote
  · cases h

theorem operator?_append_close {t rest : Text} {k : Token} (h : operator? t = some (k, rest))
    (u : Text) : operator? (t ++ ')' :: u) = some (k, rest ++ ')' :: u) := by
  unfold operator? at h
  split at h
  case h_2 rest' | h_3 rest' _ =>
    cases h
    cases rest <;> simp_all [operator?]
  all_goals first | (cases h; rfl) | cases h

/-- A closing parenthesis belongs to no token before it. -/
theorem Scans.append_close {t u : Text} {ts us : List Token} (h : Scans t ts) (hu : Scans u us) :
    Scans (t ++ ')' :: u) (ts ++ .close :: us) := by
  -- names and numbers are the tokens that go on as far as they can: they stop at the parenthesis
  induction h with
  | nil => exact .closing hu
  | blank hBlank _ ih => exact .blank hBlank ih
  | @number c rest v ts hDigit hLiteral _ ih =>
    obtain ⟨hTake, hDrop⟩ := takeWhile_append_cons (p := Char.isAlphanum) (c := ')') (by decide) rest u
    rw [List.cons_append, List.cons_append]
    exact .number hDigit (by rwa [hTake]) (by rwa [hDrop])
  | @identifier c rest ts hStart _ ih =>
    obtain ⟨hTake, hDrop⟩ := takeWhile_append_cons (p := isIdentChar) (c := ')') (by decide) rest u
    rw [List.cons_append, List.cons_append, ← hTake]
    exact .identifier hStart (by rwa [hDrop])
  | character hChar _ ih => exact .character (charRest?_append hChar _) ih
  | opening _ ih => exact .opening ih
  | closing _ ih => exact .closing ih
  | operator hOperator _ ih => exact .operator (operator?_append_close hOperator u) ih

/-! ### Operands -/

/-- How much deeper in parentheses the text is after the token. -/
def nesting : Token → Int
  | .open => 1
  | .close => -1
  | _ => 0

theorem isPlain_of_isIdentChar {c : Char} (h : isIdentChar c = true) : IsPlain c := by
  simp only [isIdentChar, Bool.or_eq_true, beq_iff_eq] at h
  rcases h with ((h | rfl) | rfl) | rfl
  · exact isPlain_of_isAlphanum h
  all_goals exact ⟨by decide, by decide, by decide, by decide⟩

/-- A plain character and a run of such characters behind it change nothing. -/
theorem unsplit_cons_iff {p : Char → Bool} {c : Char} {depth : Int} (hc : IsPlain c)
    (hp : ∀ x, p x = true → IsPlain x) (rest : Text) :
    Unsplit .outside depth (c :: rest) ↔ Unsplit .outside depth (rest.dropWhile p) := by
  have hRun : ∀ x ∈ c :: rest.takeWhile p, IsPlain x := by
    rw [List.forall_mem_cons]
    exact ⟨hc, fun x hx => hp x (List.mem_takeWhile_imp hx)⟩
  have hSplit : c :: rest.takeWhile p ++ rest.dropWhile p = c :: rest :=
    congrArg _ List.takeWhile_append_dropWhile
  rw [← hSplit]
  exact unsplit_append_iff hRun

/-- A character literal closes before what follows it. -/
theorem unsplit_charRest?_iff {rest after : Text} {v : Value} {depth : Int}
    (h : charRest? rest = some (v, after)) :
    Unsplit (.inside '\'') depth rest ↔ Unsplit .outside depth after := by
  unfold charRest? at h
  split at h
  · obtain ⟨c, hc, hEq⟩ := Option.map_eq_some_iff.mp h
    cases hEq
    simp [Unsplit, Scan.plain, Scan.next]
  · cases h
  · cases h
  · next c _ _ hSlash hQuote =>
    cases h
    have hSlash' : c ≠ '\\' := fun hc => hSlash hc
    have hQuote' : c ≠ '\'' := fun hc => hQuote hc
    simp [Unsplit, Scan.plain, Scan.next, hSlash', hQuote']
  · cases h

theorem exists_operator_eq {t after : Text} {k : Token} (h : operator? t = some (k, after)) :
    ∃ used, t = used ++ after ∧ (∀ c ∈ used, IsPlain c) ∧ k.nesting = 0 := by
  have of_plain : ∀ used : Text, (used.all fun c =>
      !isQuote c && c != ',' && c != '(' && c != ')') = true → ∀ c ∈ used, IsPlain c := by
    intro used hUsed c hc
    simpa [IsPlain, and_assoc] using List.all_eq_true.mp hUsed c hc
  unfold operator? at h
  split at h
  case h_13 => cases h
  case h_1 => cases h; exact ⟨['>', '>', '>'], rfl, of_plain _ (by decide), rfl⟩
  case h_2 => cases h; exact ⟨['<', '<'], rfl, of_plain _ (by decide), rfl⟩
  case h_3 => cases h; exact ⟨['>', '>'], rfl, of_plain _ (by decide), rfl⟩
  all_goals
    cases h
    exact ⟨[_], rfl, of_plain _ (by decide), rfl⟩

/-- No comma of the text separates operands, and its parentheses are those among the tokens. -/
theorem Scans.unsplit_iff {t : Text} {ts : List Token} (h : Scans t ts) (depth : Int) :
    Unsplit .outside depth t ↔ depth + (ts.map nesting).sum = 0 := by
  induction h generalizing depth with
  | nil => simp [Unsplit]
  | @blank c rest ts hBlank _ ih =>
    rw [← ih, ← List.singleton_append, unsplit_append_iff]
    simpa using isPlain_of_isBlank hBlank
  | number hDigit _ _ ih =>
    rw [unsplit_cons_iff (isPlain_of_isAlphanum (isAlphanum_of_isDigit hDigit))
      (fun _ => isPlain_of_isAlphanum), ih]
    simp [nesting]
  | identifier hStart _ ih =>
    rw [unsplit_cons_iff (isPlain_of_isIdentChar (isIdentChar_of_isIdentStart hStart))
      (fun _ => isPlain_of_isIdentChar), ih]
    simp [nesting]
  | character hChar _ ih =>
    show (_ ∧ Unsplit (.inside '\'') depth _) ↔ _
    rw [unsplit_charRest?_iff hChar, ih]
    simp [nesting, Scan.plain, isQuote]
  | opening _ ih =>
    show (_ ∧ Unsplit .outside (depth + 1) _) ↔ _
    rw [ih]
    simp [nesting, Int.add_assoc]
  | closing _ ih =>
    show (_ ∧ Unsplit .outside (depth - 1) _) ↔ _
    rw [ih]
    simp [nesting, Int.sub_eq_add_neg, Int.add_assoc]
  | operator hOperator _ ih =>
    obtain ⟨used, rfl, hUsed, hNesting⟩ := exists_operator_eq hOperator
    rw [unsplit_append_iff hUsed, ih]
    simp [hNesting]

end Token

namespace Expression

variable {symbols : Symbols} {t : Text} {v : Value}

theorem Derives.sum_nesting {k : Nat} {e : Tree} {ts : List Token} (h : Derives symbols k e ts) :
    (ts.map Token.nesting).sum = 0 := by
  induction h with
  | num v => rfl
  | name hn => rfl
  | group _ ih => simp [Token.nesting, ih]
  | relocated _ _ ih => simp [Token.nesting, ih]
  | signed s _ ih => cases s <;> simpa [Token.nesting, Sign.token] using ih
  | tighter _ _ ih => exact ih
  | binary _ _ _ ihl ihr => simp [Token.nesting, ihl, ihr]

theorem exists_of_evaluate (h : evaluate symbols t = .ok v) :
    ∃ ts e, Token.Scans t ts ∧ Derives symbols 1 e ts ∧ e.Means symbols v := by
  obtain ⟨ts, hScan, h⟩ := bind_eq_ok_iff.mp h
  obtain ⟨e, hDerives, hMeans⟩ := ofTokens_eq_ok_iff.mp h
  exact ⟨ts, e, Token.scans_of_scan hScan, hDerives, hMeans⟩

theorem evaluate_of_scans {ts : List Token} {e : Tree} (hScans : Token.Scans t ts)
    (h : Derives symbols 1 e ts) (hMeans : e.Means symbols v) : evaluate symbols t = .ok v := by
  rw [evaluate, hScans.scan_eq]
  exact ofTokens_eq_ok_iff.mpr ⟨e, h, hMeans⟩

theorem ne_nil_of_evaluate (h : evaluate symbols t = .ok v) : t ≠ [] := by
  rintro rfl
  obtain ⟨ts, hScan, h⟩ := bind_eq_ok_iff.mp h
  rw [Token.scan] at hScan
  cases hScan
  cases h

/-- A text with a value is one operand. -/
theorem isPiece_of_evaluate (h : evaluate symbols t = .ok v) (hTrim : trim t = t) : IsPiece t := by
  obtain ⟨ts, e, hScans, hDerives, -⟩ := exists_of_evaluate h
  refine ⟨ne_nil_of_evaluate h, hTrim, (hScans.unsplit_iff 0).mpr ?_⟩
  rw [hDerives.sum_nesting]
  rfl

/-! ### Groups -/

/-- The operand of a relocation, as it is written. -/
def relocatedText (r : Relocation) (t : Text) : Text := '%' :: (r.name ++ '(' :: (t ++ [')']))

/-- An operand whose sign is changed. -/
def negatedText (t : Text) : Text := '-' :: '(' :: (t ++ [')'])

/-- An operand to which one is added. -/
def incrementedText (t : Text) : Text := '(' :: (t ++ ')' :: [' ', '+', ' ', '1'])

theorem trim_relocatedText (r : Relocation) (t : Text) :
    trim (relocatedText r t) = relocatedText r t := by
  have hEnclosed := trim_enclosed (a := '%') (b := ')') (by decide) (by decide) (r.name ++ '(' :: t)
  rwa [List.append_assoc, List.cons_append] at hEnclosed

theorem trim_negatedText (t : Text) : trim (negatedText t) = negatedText t :=
  trim_enclosed (by decide) (by decide) ('(' :: t)

theorem trim_incrementedText (t : Text) : trim (incrementedText t) = incrementedText t := by
  have hEnclosed := trim_enclosed (a := '(') (b := '1') (by decide) (by decide) (t ++ [')', ' ', '+', ' '])
  rwa [List.append_assoc] at hEnclosed

theorem evaluate_relocatedText (r : Relocation) (h : evaluate symbols t = .ok v) :
    evaluate symbols (relocatedText r t) = .ok (r.apply v) := by
  obtain ⟨ts, e, hScans, hDerives, hDivisors, rfl⟩ := exists_of_evaluate h
  have hInner := Token.Scans.opening (hScans.append_close .nil)
  have hName : Token.Scans (r.name ++ '(' :: (t ++ [')']))
      (.ident r.name :: .open :: (ts ++ [.close])) := by
    cases r
    all_goals exact .identifier (by decide) hInner
  have hText : Token.Scans (relocatedText r t)
      (.op .rem :: .ident r.name :: .open :: (ts ++ [.close])) := .operator rfl hName
  have hLower : lowercase r.name = r.name := by cases r <;> rfl
  refine evaluate_of_scans hText ((Derives.relocated hLower hDerives).loosen (by decide)
    (by decide)) ⟨hDivisors, ?_⟩
  exact (r.apply_eq_meaning _).symm

theorem evaluate_negatedText (h : evaluate symbols t = .ok v) :
    evaluate symbols (negatedText t) = .ok (-v) := by
  obtain ⟨ts, e, hScans, hDerives, hDivisors, rfl⟩ := exists_of_evaluate h
  have hText : Token.Scans (negatedText t) (Sign.minus.token :: .open :: (ts ++ [.close])) :=
    .operator rfl (.opening (hScans.append_close .nil))
  refine evaluate_of_scans hText ((Derives.signed .minus (.group hDerives)).loosen (by decide)
    (by decide)) ⟨hDivisors, ?_⟩
  show BitVec.ofInt 64 (-(e.value symbols).toInt) = _
  rw [BitVec.ofInt_neg, BitVec.ofInt_toInt]

theorem evaluate_incrementedText (h : evaluate symbols t = .ok v) :
    evaluate symbols (incrementedText t) = .ok (v + 1) := by
  obtain ⟨ts, e, hScans, hDerives, hMeans⟩ := exists_of_evaluate h
  -- the group is the left operand of a sum, whose right one has to bind tighter
  have hOne : Token.Scans [' ', '+', ' ', '1'] [.op .add, .num 1] :=
    .blank rfl (.operator rfl (.blank rfl (.number rfl rfl .nil)))
  have hText : Token.Scans (incrementedText t)
      (.open :: (ts ++ [.close]) ++ .op .add :: [.num 1]) := by
    simpa [incrementedText] using Token.Scans.opening (hScans.append_close hOne)
  have hGroup : Derives symbols 1 (.group e) (.open :: (ts ++ [.close])) :=
    (Derives.group hDerives).loosen (by decide) (by decide)
  have hNum : Derives symbols 2 (.num 1) [.num 1] := (Derives.num 1).loosen (by decide) (by decide)
  refine evaluate_of_scans hText (.binary (mem_operatorsOf.mpr rfl) hGroup hNum) ?_
  exact Tree.means_binary_iff.mpr ⟨v, 1, hMeans, ⟨trivial, rfl⟩, rfl⟩

end Expression

end NiosBoard
