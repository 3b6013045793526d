import Mathlib.Data.List.TakeWhile
import NiosBoard.Assembly.Line
import NiosBoard.Proofs.Text.Comments

/-! # A label in front of a line

Comments, blanks, constants and labels are taken off a line with a label in front as they are taken
off the line itself: the label is cut off first and nothing else changes, but for the blanks between
the two, which labels are only looked for behind if they are spaces and tabs.
-/

namespace NiosBoard

namespace Text

variable {name : Text}

theorem isIdentifier_iff {name : Text} :
    isIdentifier name = true ↔
      ∃ c rest, name = c :: rest ∧ isIdentStart c = true ∧ ∀ x ∈ rest, isIdentChar x = true := by
  cases name with
  | nil => simp [isIdentifier]
  | cons c rest => simp [isIdentifier]

theorem identifier?_eq_some_iff {t name rest : Text} :
    identifier? t = some (name, rest) ↔
      t = name ++ rest ∧ isIdentifier name = true ∧
        ∀ c, rest.head? = some c → isIdentChar c = false := by
  constructor
  · intro h
    refine ⟨(append_of_identifier? h).symm, ?_⟩
    cases t with
    | nil => cases h
    | cons c t =>
      rw [identifier?] at h
      split at h
      · next hStart =>
        cases h
        refine ⟨isIdentifier_iff.mpr ⟨c, _, rfl, hStart, fun x hx => List.mem_takeWhile_imp hx⟩, ?_⟩
        intro x hx
        simpa [hx] using List.head?_dropWhile_not isIdentChar t
      · cases h
  · rintro ⟨rfl, hName, hStop⟩
    obtain ⟨c, tail, rfl, hStart, hTail⟩ := isIdentifier_iff.mp hName
    obtain ⟨hTake, hDrop⟩ := takeWhile_append_eq hTail hStop
    rw [List.cons_append, identifier?, if_pos hStart, hTake, hDrop]

theorem isIdentChar_of_mem (h : isIdentifier name = true) {c : Char} (hc : c ∈ name) :
    isIdentChar c = true := by
  obtain ⟨d, rest, rfl, hStart, hRest⟩ := isIdentifier_iff.mp h
  rcases List.mem_cons.mp hc with rfl | hc
  · exact isIdentChar_of_isIdentStart hStart
  · exact hRest c hc

theorem ne_of_isIdentChar {c x : Char} (h : isIdentChar c = true) (hx : isIdentChar x = false) :
    c ≠ x := by
  rintro rfl
  rw [h] at hx
  cases hx

theorem isQuote_of_isIdentChar {c : Char} (h : isIdentChar c = true) : isQuote c = false := by
  simp [isQuote, ne_of_isIdentChar h (x := '"') (by decide),
    ne_of_isIdentChar h (x := '\'') (by decide)]

theorem isBlank_of_isIdentChar {c : Char} (h : isIdentChar c = true) : isBlank c = false := by
  simp only [isIdentChar, Bool.or_eq_true, beq_iff_eq] at h
  rcases h with ((h | rfl) | rfl) | rfl
  · exact isBlank_of_isAlphanum h
  all_goals decide

theorem isIdentChar_of_isBlank {c : Char} (h : isBlank c = true) : isIdentChar c = false := by
  rw [← Bool.not_eq_true]
  intro hIdent
  rw [isBlank_of_isIdentChar hIdent] at h
  cases h

/-! ### Comments and blanks -/

theorem takeWhile_isBlank_stripComment (t : Text) :
    (stripComment t).takeWhile isBlank = t.takeWhile isBlank := by
  induction t with
  | nil => rfl
  | cons c t ih =>
    cases hBlank : isBlank c with
    | true =>
      rw [stripComment_cons_of_isBlank hBlank, List.takeWhile_cons_of_pos hBlank,
        List.takeWhile_cons_of_pos hBlank, ih]
    | false =>
      rw [List.takeWhile_cons_of_neg (by simp [hBlank]), stripComment, stripCommentFrom]
      split
      · rfl
      · rw [List.takeWhile_cons_of_neg (by simp [hBlank])]

theorem trim_append_blanks {blanks : Text} (h : ∀ c ∈ blanks, isBlank c = true) (t : Text) :
    trim (t ++ blanks) = trim t := by
  induction blanks generalizing t with
  | nil => rw [List.append_nil]
  | cons c blanks ih =>
    rw [List.forall_mem_cons] at h
    rw [← List.singleton_append, ← List.append_assoc, ih h.2, trim_append_of_isBlank h.1]

theorem trim_blanks_append {blanks : Text} (h : ∀ c ∈ blanks, isBlank c = true) (t : Text) :
    trim (blanks ++ t) = trim t := by
  rw [trim, trimStart, List.dropWhile_append_of_pos h, trim, trimStart]

theorem prefix_trimEnd (t : Text) : trimEnd t <+: t :=
  List.reverse_suffix.mp (by
    rw [trimEnd, List.reverse_reverse]
    exact List.dropWhile_suffix isBlank)

theorem isBlank_head?_trimEnd {t : Text} (h : ∀ c, t.head? = some c → isBlank c = true) (c : Char)
    (hc : (trimEnd t).head? = some c) : isBlank c = true := by
  obtain ⟨blanks, hText⟩ := prefix_trimEnd t
  refine h c ?_
  rw [← hText, List.head?_append, hc]
  rfl

theorem trimEnd_append {t : Text} (hLast : ∀ c, t.getLast? = some c → isBlank c = false)
    (u : Text) : trimEnd (t ++ u) = t ++ trimEnd u := by
  rw [trimEnd, trimEnd, List.reverse_append, List.dropWhile_append]
  split
  · next hEmpty =>
    rw [List.isEmpty_iff.mp hEmpty, dropWhile_isBlank_eq_self, List.reverse_reverse]
    · exact (List.append_nil t).symm
    · intro c hc
      exact hLast c (by rwa [List.head?_reverse] at hc)
  · rw [List.reverse_append, List.reverse_reverse]

/-- A text is what is left of it when it is trimmed, with blanks around that. -/
theorem eq_append_trim_append (t : Text) :
    ∃ blanks, t = t.takeWhile isBlank ++ (trim t ++ blanks) ∧ ∀ c ∈ blanks, isBlank c = true := by
  refine ⟨((trimStart t).reverse.takeWhile isBlank).reverse, ?_, ?_⟩
  · rw [trim, trimEnd, ← List.reverse_append, List.takeWhile_append_dropWhile, List.reverse_reverse]
    exact List.takeWhile_append_dropWhile.symm
  · intro c hc
    exact List.mem_takeWhile_imp (List.mem_reverse.mp hc)

theorem stripComment_labelled (hName : isIdentifier name = true) (raw : Text) :
    stripComment (name ++ ':' :: ' ' :: raw) = name ++ ':' :: ' ' :: stripComment raw := by
  have hPlain : ∀ c ∈ name ++ [':', ' '], isQuote c = false ∧ c ≠ '#' ∧ c ≠ '/' := by
    intro c hc
    rcases List.mem_append.mp hc with hc | hc
    · have hIdent := isIdentChar_of_mem hName hc
      exact ⟨isQuote_of_isIdentChar hIdent, ne_of_isIdentChar hIdent (by decide),
        ne_of_isIdentChar hIdent (by decide)⟩
    · rcases List.mem_pair.mp hc with rfl | rfl <;> decide
  have hAppend := stripCommentFrom_append_of_forall hPlain raw
  rwa [List.append_assoc, List.append_assoc] at hAppend

theorem trim_labelled (hName : isIdentifier name = true) {t : Text}
    (ht : ∀ c, t.getLast? = some c → isBlank c = false) :
    trim (name ++ ':' :: t) = name ++ ':' :: t := by
  obtain ⟨d, rest, hCons, hStart, -⟩ := isIdentifier_iff.mp hName
  refine trim_eq_self (fun c hc => ?_) fun c hc => ?_
  · rw [hCons] at hc
    cases hc
    exact isBlank_of_isIdentChar (isIdentChar_of_isIdentStart hStart)
  · rw [List.getLast?_append_of_ne_nil _ (List.cons_ne_nil _ _), List.getLast?_cons] at hc
    cases hLast : t.getLast? with
    | none =>
      rw [hLast] at hc
      cases hc
      decide
    | some last =>
      rw [hLast] at hc
      cases hc
      exact ht _ hLast

/-- What a line with a label says is the label, blanks, and what the line says. The blanks are those
in front of the line, and one more. -/
theorem said_labelled (hName : isIdentifier name = true) (raw : Text) :
    ∃ blanks, said (name ++ ':' :: ' ' :: raw) = name ++ ':' :: (blanks ++ said raw) ∧
      (∀ c ∈ blanks, isBlank c = true) ∧
      ((∀ c ∈ raw.takeWhile isBlank, isSpace c = true) → ∀ c ∈ blanks, isSpace c = true) := by
  obtain ⟨trailing, hRaw, hTrailing⟩ := eq_append_trim_append (stripComment raw)
  rw [takeWhile_isBlank_stripComment] at hRaw
  have hLeading : ∀ c ∈ raw.takeWhile isBlank, isBlank c = true := fun c hc =>
    List.mem_takeWhile_imp hc
  have hSaid : said (name ++ ':' :: ' ' :: raw) =
      trim (name ++ ':' :: ' ' :: (raw.takeWhile isBlank ++ said raw)) := by
    calc said (name ++ ':' :: ' ' :: raw)
        = trim (name ++ ':' :: ' ' :: stripComment raw) := by rw [said, stripComment_labelled hName]
      _ = trim (name ++ ':' :: ' ' :: (raw.takeWhile isBlank ++ said raw) ++ trailing) := by
        rw [hRaw, said, List.append_assoc, List.cons_append, List.cons_append, List.append_assoc]
      _ = _ := trim_append_blanks hTrailing _
  have hBlanks : ∀ c ∈ ' ' :: raw.takeWhile isBlank, isBlank c = true :=
    List.forall_mem_cons.mpr ⟨rfl, hLeading⟩
  rw [hSaid]
  by_cases hNothing : said raw = []
  · refine ⟨[], ?_, by simp, by simp⟩
    rw [hNothing, List.append_nil, List.append_nil, ← trim_labelled hName (t := []) (by simp),
      ← trim_append_blanks hBlanks (name ++ [':'])]
    simp only [List.append_assoc, List.cons_append, List.nil_append]
  · refine ⟨' ' :: raw.takeWhile isBlank, ?_, hBlanks,
      fun hSpaces => List.forall_mem_cons.mpr ⟨rfl, hSpaces⟩⟩
    refine trim_labelled hName fun c hc => ?_
    rw [← List.cons_append, List.getLast?_append_of_ne_nil _ hNothing] at hc
    exact (isBlank_ends_trim (stripComment raw)).2 c hc

/-! ### Constants -/

variable {f : Text → Option Text}

theorem isIdentStart_eq_false {c : Char} (h : isIdentChar c = false) : isIdentStart c = false := by
  rw [← Bool.not_eq_true] at h ⊢
  exact mt isIdentChar_of_isIdentStart h

/-- Where no name can start, it does not matter whether one has just ended. -/
theorem substituteFrom_of_head? (inRun : Bool) {t : Text}
    (hStop : ∀ c, t.head? = some c → isIdentChar c = false) :
    substituteFrom f .outside inRun t = substitute f t := by
  cases t with
  | nil => rw [substitute, substituteFrom, substituteFrom]
  | cons c t =>
    rw [substitute, substituteFrom, substituteFrom, isIdentStart_eq_false (hStop c rfl), Bool.and_false,
      Bool.and_false]

/-- An identifier is replaced as a whole. -/
theorem substitute_identifier (f : Text → Option Text) (hName : isIdentifier name = true) {t : Text}
    (hStop : ∀ c, t.head? = some c → isIdentChar c = false) :
    substitute f (name ++ t) = (f name).getD name ++ substitute f t := by
  obtain ⟨c, rest, rfl, hStart, hRest⟩ := isIdentifier_iff.mp hName
  have hIdent := isIdentChar_of_isIdentStart hStart
  have hPlain : Scan.outside.plain c = true := by simp [Scan.plain, isQuote_of_isIdentChar hIdent]
  have hSlash : c ≠ '\\' := ne_of_isIdentChar hIdent (by decide)
  obtain ⟨hTake, hDrop⟩ := takeWhile_append_eq hRest hStop
  rw [substitute, List.cons_append, substituteFrom, if_neg (by simp [hPlain]),
    if_neg (by simpa using hSlash), if_pos (by simp [hStart]), hTake, hDrop,
    substituteFrom_of_head? true hStop]

theorem substitute_append (hName : isIdentifier name = true) (hNone : f name = none) {t : Text}
    (hStop : ∀ c, t.head? = some c → isIdentChar c = false) :
    substitute f (name ++ t) = name ++ substitute f t := by
  rw [substitute_identifier f hName hStop, hNone, Option.getD_none]

theorem substitute_labelled (hName : isIdentifier name = true) (hNone : f name = none) (t : Text) :
    substitute f (name ++ ':' :: t) = name ++ ':' :: substitute f t := by
  have hColon : substitute f (':' :: t) = ':' :: substitute f t := by
    rw [substitute, substituteFrom]
    rfl
  rw [substitute_append hName hNone (by rintro c ⟨⟩; decide), hColon]

theorem substitute_blanks {blanks : Text} (h : ∀ c ∈ blanks, isBlank c = true) (t : Text) :
    substitute f (blanks ++ t) = blanks ++ substitute f t := by
  induction blanks with
  | nil => rfl
  | cons c blanks ih =>
    rw [List.forall_mem_cons] at h
    have hIdent := isIdentChar_of_isBlank h.1
    have hStart := isIdentStart_eq_false hIdent
    have hSlash : c ≠ '\\' := by
      rintro rfl
      exact absurd h.1 (by decide)
    rw [substitute, List.cons_append, substituteFrom,
      if_neg (by simp [Scan.plain, isQuote_of_isBlank h.1]), if_neg (by simpa using hSlash),
      if_neg (by simp [hStart]), hIdent]
    exact congrArg (c :: ·) (ih h.2)

theorem isBlank_head?_substitute {t : Text} (h : ∀ c, t.head? = some c → isBlank c = true) (c : Char)
    (hc : (substitute f t).head? = some c) : isBlank c = true := by
  cases t with
  | nil =>
    rw [substitute_nil] at hc
    cases hc
  | cons d t =>
    have hBlank := h d rfl
    rw [← List.singleton_append, substitute_blanks (List.forall_mem_singleton.mpr hBlank)] at hc
    cases hc
    exact hBlank

end Text

/-! ### Labels -/

namespace Line

open Text

variable {name t : Text} {c : Char}

theorem skipSpaces_of_isIdentChar (h : isIdentChar c = true) (t : Text) :
    skipSpaces (c :: t) = c :: t := by
  refine List.dropWhile_cons_of_neg fun hSpace => ?_
  have hBlank := isBlank_of_isIdentChar h
  rw [isBlank_of_isSpace hSpace] at hBlank
  cases hBlank

theorem label?_labelled (hName : isIdentifier name = true) (t : Text) :
    label? (name ++ ':' :: t) = some (name, t) := by
  obtain ⟨c, rest, rfl, hStart, hRest⟩ := isIdentifier_iff.mp hName
  have hStop : ∀ x, (':' :: t).head? = some x → isIdentChar x = false := by
    rintro x ⟨⟩
    decide
  obtain ⟨hTake, hDrop⟩ := takeWhile_append_eq hRest hStop
  rw [label?, List.cons_append, skipSpaces_of_isIdentChar (isIdentChar_of_isIdentStart hStart)]
  simp only [identifier?, hStart, if_true, hTake, hDrop]
  rfl

theorem labels_labelled (hName : isIdentifier name = true) (t : Text) :
    labels (name ++ ':' :: t) = (name :: (labels t).1, (labels t).2) := by
  rw [labels]
  split
  · next h =>
    rw [label?_labelled hName] at h
    cases h
  · next h =>
    rw [label?_labelled hName] at h
    cases h
    rfl

theorem label?_cons_of_isSpace (h : isSpace c = true) (t : Text) : label? (c :: t) = label? t := by
  rw [label?, label?, skipSpaces, skipSpaces, List.dropWhile_cons_of_pos h]

/-- A label stands behind spaces and tabs only. -/
theorem label?_cons_of_isBlank (hBlank : isBlank c = true) (hSpace : isSpace c = false) (t : Text) :
    label? (c :: t) = none := by
  have hStart := isIdentStart_eq_false (isIdentChar_of_isBlank hBlank)
  rw [label?, skipSpaces, List.dropWhile_cons_of_neg (by simp [hSpace])]
  simp [identifier?, hStart]

theorem label?_blanks {blanks : Text} (h : ∀ c ∈ blanks, isBlank c = true)
    (hFront : (∀ c ∈ blanks, isSpace c = true) ∨ label? t = none) :
    label? (blanks ++ t) = label? t := by
  induction blanks with
  | nil => rfl
  | cons c blanks ih =>
    rw [List.forall_mem_cons] at h hFront
    have hRest := ih h.2 (hFront.imp_left And.right)
    cases hSpace : isSpace c with
    | true => rw [List.cons_append, label?_cons_of_isSpace hSpace, hRest]
    | false =>
      rw [List.cons_append, label?_cons_of_isBlank h.1 hSpace]
      rcases hFront with hFront | hFront
      · rw [hFront.1] at hSpace
        cases hSpace
      · exact hFront.symm

theorem labels_blanks {blanks : Text} (h : ∀ c ∈ blanks, isBlank c = true)
    (hFront : (∀ c ∈ blanks, isSpace c = true) ∨ label? t = none) :
    (labels (blanks ++ t)).1 = (labels t).1 ∧
      trim (labels (blanks ++ t)).2 = trim (labels t).2 := by
  rw [labels, labels, label?_blanks h hFront]
  split
  · exact ⟨rfl, trim_blanks_append h t⟩
  · exact ⟨rfl, rfl⟩

end Line

end NiosBoard
