import Mathlib.Data.List.Basic
import NiosBoard.Proofs.Text.Plain

/-! # Blank lines and comments

What a line says is what is left of it without its comment and the blanks around it. Blanks and
comments alone say nothing, and at the end of a line they change nothing, unless a literal is still
open there.
-/

namespace NiosBoard.Text

/-- Nothing, or a comment from the first character on. -/
def CommentOnly (t : Text) : Prop := t = [] ∨ t.head? = some '#' ∨ ['/', '/'] <+: t

/-- Blanks, and perhaps a comment after them. -/
def BlankLine (t : Text) : Prop :=
  ∃ blanks comment, t = blanks ++ comment ∧ (∀ c ∈ blanks, isBlank c = true) ∧ CommentOnly comment

/-- What a line says. -/
def said (t : Text) : Text := trim (stripComment t)

theorem isQuote_of_isBlank {c : Char} (h : isBlank c = true) : isQuote c = false := by
  rw [← Bool.not_eq_true]
  intro hQuote
  simp only [isQuote, Bool.or_eq_true, beq_iff_eq] at hQuote
  rcases hQuote with rfl | rfl <;> cases h

theorem opensComment_of_isBlank {c : Char} (h : isBlank c = true) (rest : Text) :
    opensComment c rest = false := by
  have hHash : c ≠ '#' := by
    rintro rfl
    cases h
  have hSlash : c ≠ '/' := by
    rintro rfl
    cases h
  simp [opensComment, hHash, hSlash]

theorem stripComment_cons_of_isBlank {c : Char} (h : isBlank c = true) (rest : Text) :
    stripComment (c :: rest) = c :: stripComment rest := by
  have hNext : Scan.outside.next c = .outside := by simp [Scan.next, isQuote_of_isBlank h]
  rw [stripComment, stripCommentFrom, opensComment_of_isBlank h, Bool.and_false,
    if_neg Bool.false_ne_true, hNext]
  rfl

theorem stripComment_of_commentOnly {t : Text} (h : CommentOnly t) : stripComment t = [] := by
  rcases h with rfl | hHash | ⟨rest, rfl⟩
  · rfl
  · obtain ⟨rest, rfl⟩ := List.head?_eq_some_iff.mp hHash
    rfl
  · rfl

theorem said_of_blankLine {t : Text} (h : BlankLine t) : said t = [] := by
  obtain ⟨blanks, comment, rfl, hBlanks, hComment⟩ := h
  induction blanks with
  | nil =>
    rw [said, List.nil_append, stripComment_of_commentOnly hComment]
    rfl
  | cons c blanks ih =>
    rw [List.forall_mem_cons] at hBlanks
    rw [said, List.cons_append, stripComment_cons_of_isBlank hBlanks.1,
      trim_cons_of_isBlank hBlanks.1]
    exact ih hBlanks.2

theorem trim_append_of_isBlank {c : Char} (h : isBlank c = true) (t : Text) :
    trim (t ++ [c]) = trim t := by
  rw [trim, trim, trimStart, trimStart, List.dropWhile_append]
  split
  · next hEmpty =>
    rw [List.isEmpty_iff.mp hEmpty, List.dropWhile_cons_of_pos h]
    rfl
  · rw [trimEnd, List.reverse_append, List.reverse_singleton, List.singleton_append,
      List.dropWhile_cons_of_pos h]
    rfl

/-- Whether a comment opens is seen from the next character, and a blank is not the second slash. -/
theorem opensComment_append {b : Char} (hb : isBlank b = true) (c : Char) (t comment : Text) :
    opensComment c (t ++ b :: comment) = opensComment c t := by
  cases t with
  | nil =>
    have hSlash : b ≠ '/' := by
      rintro rfl
      cases hb
    simp [opensComment, hSlash]
  | cons d t => rfl

theorem stripCommentFrom_append {b : Char} (hb : isBlank b = true) {comment : Text}
    (hComment : CommentOnly comment) {s : Scan} {t : Text}
    (hOutside : s.after (stripCommentFrom s t) = .outside) :
    stripCommentFrom s (t ++ b :: comment) = stripCommentFrom s t ∨
      stripCommentFrom s (t ++ b :: comment) = stripCommentFrom s t ++ [b] := by
  induction t generalizing s with
  | nil =>
    obtain rfl : s = .outside := hOutside
    refine .inr ?_
    show stripComment (b :: comment) = [b]
    rw [stripComment_cons_of_isBlank hb, stripComment_of_commentOnly hComment]
  | cons c t ih =>
    rw [List.cons_append, stripCommentFrom, stripCommentFrom, opensComment_append hb]
    rw [stripCommentFrom] at hOutside
    split
    · exact .inl rfl
    · next hPlain =>
      rw [if_neg hPlain] at hOutside
      rcases ih hOutside with hSame | hBlank
      · exact .inl (congrArg _ hSame)
      · exact .inr (congrArg _ hBlank)

/-- A comment behind a blank changes nothing at the end of a line with no literal open there. -/
theorem said_append {b : Char} (hb : isBlank b = true) {comment : Text} (hComment : CommentOnly comment)
    {t : Text} (hOutside : Scan.outside.after (stripComment t) = .outside) :
    said (t ++ b :: comment) = said t := by
  rw [said, said]
  rcases stripCommentFrom_append hb hComment hOutside with hSame | hBlank
  · exact congrArg trim hSame
  · exact (congrArg trim hBlank).trans (trim_append_of_isBlank hb _)

/-! ### Lines -/

/-- A text that ends where a line begins. -/
def WholeLines (t : Text) : Prop := t = [] ∨ t.getLast? = some '\n'

theorem WholeLines.of_cons {c : Char} {t : Text} (h : WholeLines (c :: t)) : WholeLines t := by
  cases t with
  | nil => exact .inl rfl
  | cons d t => exact .inr (by simpa [WholeLines] using h)

theorem eq_nil_of_lines_eq_nil {t : Text} (h : lines t = []) : t = [] := by
  unfold lines at h
  split at h
  · rfl
  · cases h
  · cases h
  · split at h <;> cases h

/-- Text after whole lines does not run into them. -/
theorem lines_append {t : Text} (h : WholeLines t) (rest : Text) :
    lines (t ++ rest) = lines t ++ lines rest := by
  induction t using lines.induct with
  | case1 => rfl
  | case2 t ih =>
    rw [List.cons_append, lines, lines, ih h.of_cons, List.cons_append]
  | case3 t ih =>
    rw [List.cons_append, List.cons_append, lines, lines, ih h.of_cons.of_cons, List.cons_append]
  | case4 c t hNewline hReturn hNil ih =>
    obtain rfl := eq_nil_of_lines_eq_nil hNil
    rcases h with h | h
    · cases h
    · exact absurd (Option.some.inj h) hNewline
  | case5 c t hNewline hReturn line more hLines ih =>
    cases t with
    | nil => cases hLines
    | cons d t =>
      have hReturn' : ∀ r, c = '\r' → d :: (t ++ rest) = '\n' :: r → False := by
        rintro r hc hd
        obtain ⟨rfl, -⟩ := List.cons.inj hd
        exact hReturn t hc rfl
      have hWhole : lines (c :: d :: t) = (c :: line) :: more := by
        rw [lines, hLines]
        · exact hNewline
        · exact hReturn
      rw [List.cons_append, List.cons_append, lines, ← List.cons_append, ih h.of_cons, hLines, hWhole]
      · rfl
      · exact hNewline
      · exact hReturn'

end NiosBoard.Text
