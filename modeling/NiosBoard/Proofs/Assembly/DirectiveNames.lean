import Mathlib
import NiosBoard.Assembly.Draft
import NiosBoard.Proofs.Text.LabelledLine

/-! # The names of directives

A directive is known by the lower case of its name. The known names are made of letters and
underscores, so that a known directive at the front of a line is an identifier.
-/

namespace NiosBoard

open Text

def Directive.names : List Text :=
  ["text", "data", "equ", "set", "global", "globl", "macro", "endm", "end_macro", "end", "byte",
    "hword", "short", "half", "word", "ascii", "asciz", "string", "skip", "space", "align"].map
    String.toList

theorem mem_of_findSome?_eq_some {α : Type} {table : List (String × α)} {name : Text} {a : α}
    (h : table.findSome? (fun (n, a) => if n.toList = name then some a else none) = some a) :
    name ∈ table.map fun e => e.1.toList := by
  obtain ⟨⟨n, a'⟩, hMem, hName⟩ := List.exists_of_findSome?_eq_some h
  dsimp only at hName
  split at hName
  · next hEq => exact hEq ▸ List.mem_map_of_mem hMem
  · cases hName

namespace Directive

variable {name other : Text} {k : Directive}

theorem ofName?_congr (h : lowercase name = lowercase other) : ofName? name = ofName? other := by
  rw [ofName?, ofName?, h]

theorem lowercase_mem_names (h : ofName? name = some k) : lowercase name ∈ names := by
  unfold ofName? at h
  dsimp only at h
  split at h
  · next hFind => exact (List.take_sublist 10 names).subset (mem_of_findSome?_eq_some hFind)
  · obtain ⟨kind, hKind, -⟩ := Option.map_eq_some_iff.mp h
    exact (List.drop_sublist 10 names).subset (mem_of_findSome?_eq_some hKind)

theorem ofName?_of_dataKind {kind : DataKind}
    (h : DataKind.ofName? (lowercase name) = some kind) : ofName? name = some (.item kind) := by
  have hAll : ∀ n ∈ names.drop 10, lowercase n = n ∧ ofName? n = (DataKind.ofName? n).map .item := by
    decide +kernel
  obtain ⟨hLower, hItem⟩ := hAll _ (mem_of_findSome?_eq_some h)
  rw [← ofName?_congr hLower, hItem, h]
  rfl

theorem lowercase_eq_macro (h : ofName? name = some .openMacro) : lowercase name = "macro".toList := by
  have hAll : ∀ n ∈ names, lowercase n = n ∧ (ofName? n = some .openMacro → n = "macro".toList) := by
    decide +kernel
  obtain ⟨hLower, hMacro⟩ := hAll _ (lowercase_mem_names h)
  exact hMacro ((ofName?_congr hLower).trans h)

theorem isIdentChar_of_mem_names (h : lowercase name ∈ names) {c : Char} (hc : c ∈ name) :
    isIdentChar c = true := by
  have hAll : names.all (fun n => n.all fun c => c.isAlphanum || c == '_') = true := by
    decide +kernel
  have hLower := List.all_eq_true.mp (List.all_eq_true.mp hAll _ h) _ (List.mem_map_of_mem hc)
  rw [Bool.or_eq_true, beq_iff_eq] at hLower
  rw [isIdentChar, Bool.or_eq_true, Bool.or_eq_true, Bool.or_eq_true]
  rcases hLower with hLower | hLower
  · exact .inl (.inl (.inl (isAlphanum_of_isAlphanum_toLower hLower)))
  · have hUpper : ¬ c.isUpper = true := by
      intro hUpper
      have hLetter := Char.isLower_toLower_eq_isAlpha c
      rw [hLower, isAlpha_of_isUpper hUpper] at hLetter
      exact absurd hLetter (by decide)
    rw [Char.toLower_eq_of_not_isUpper hUpper] at hLower
    exact .inl (.inl (.inr (by simp [hLower])))

end Directive

/-- A directive at the front of a line: a dot, a word, and what follows from the first blank on. -/
theorem Line.directive?_eq_some_iff {t word operands : Text} :
    directive? t = some (word, operands) ↔
      t = '.' :: (word ++ operands) ∧ word ≠ [] ∧ (∀ c ∈ word, isBlank c = false) ∧
        ∀ c, operands.head? = some c → isBlank c = true := by
  constructor
  · intro h
    unfold directive? mnemonic? at h
    split at h
    · next rest =>
      split at h
      · cases h
      · next hWord =>
        cases h
        refine ⟨by rw [List.takeWhile_append_dropWhile], hWord, fun c hc => ?_, fun c hc => ?_⟩
        · simpa using List.mem_takeWhile_imp hc
        · simpa [hc] using List.head?_dropWhile_not (!isBlank ·) rest
    · cases h
  · rintro ⟨rfl, hWord, hPlain, hBlank⟩
    obtain ⟨hTake, hDrop⟩ := takeWhile_append_eq (p := (!isBlank ·))
      (fun c hc => congrArg Bool.not (hPlain c hc)) fun c hc => congrArg Bool.not (hBlank c hc)
    rw [directive?, mnemonic?, hTake, hDrop]
    cases word with
    | nil => exact absurd rfl hWord
    | cons c word => rfl

/-! ### A directive at the front of a line -/

namespace Directive

variable {word operands : Text}

theorem isIdentifier_dot (h : lowercase word ∈ names) : isIdentifier ('.' :: word) = true :=
  isIdentifier_iff.mpr ⟨'.', word, rfl, by decide, fun _ hc => isIdentChar_of_mem_names h hc⟩

theorem not_isBlank_getLast? (h : lowercase word ∈ names) (c : Char)
    (hc : ('.' :: word).getLast? = some c) : isBlank c = false :=
  isBlank_of_isIdentChar (isIdentChar_of_mem (isIdentifier_dot h) (List.mem_of_getLast? hc))

theorem trim_line (h : lowercase word ∈ names) (operands : Text) :
    trim ('.' :: (word ++ operands)) = '.' :: (word ++ trimEnd operands) := by
  rw [trim, trimStart, dropWhile_isBlank_eq_self (by rintro c ⟨⟩; rfl), ← List.cons_append,
    trimEnd_append (not_isBlank_getLast? h), List.cons_append]

/-- What a line with a directive says, blanks around it and comments left out. -/
theorem said_line {blanks : Text} (hBlanks : ∀ c ∈ blanks, isBlank c = true)
    (h : lowercase word ∈ names) (rest : Text) :
    said (blanks ++ '.' :: (word ++ rest)) = '.' :: (word ++ trimEnd (stripComment rest)) := by
  have hPlain : ∀ c ∈ blanks ++ '.' :: word, isQuote c = false ∧ c ≠ '#' ∧ c ≠ '/' := by
    intro c hc
    rcases List.mem_append.mp hc with hc | hc
    · refine ⟨isQuote_of_isBlank (hBlanks c hc), ?_, ?_⟩ <;> rintro rfl <;>
        exact absurd (hBlanks _ hc) (by decide)
    · have hIdent := isIdentChar_of_mem (isIdentifier_dot h) hc
      exact ⟨isQuote_of_isIdentChar hIdent, ne_of_isIdentChar hIdent (by decide),
        ne_of_isIdentChar hIdent (by decide)⟩
  have hStrip := stripCommentFrom_append_of_forall hPlain rest
  rw [List.append_assoc, List.append_assoc, List.cons_append] at hStrip
  rw [said, stripComment, hStrip, trim_blanks_append hBlanks, ← trim_line h]
  rfl

theorem directive?_line (h : lowercase word ∈ names)
    (hBlank : ∀ c, operands.head? = some c → isBlank c = true) :
    Line.directive? ('.' :: (word ++ operands)) = some (word, operands) := by
  refine Line.directive?_eq_some_iff.mpr ⟨rfl, ?_, fun c hc => ?_, hBlank⟩
  · rintro rfl
    exact absurd h (by decide +kernel)
  · exact isBlank_of_isIdentChar (isIdentChar_of_mem_names h hc)

theorem label?_line (h : lowercase word ∈ names)
    (hBlank : ∀ c, operands.head? = some c → isBlank c = true) :
    Line.label? ('.' :: (word ++ operands)) =
      (match Line.skipSpaces operands with
        | ':' :: rest => some ('.' :: word, rest)
        | _ => none) := by
  obtain ⟨hTake, hDrop⟩ := takeWhile_append_eq (t := word)
    (fun c hc => isIdentChar_of_mem_names h hc) fun c hc => isIdentChar_of_isBlank (hBlank c hc)
  rw [Line.label?, Line.skipSpaces_of_isIdentChar (by decide)]
  simp only [identifier?, hTake, hDrop]
  rfl

theorem label?_line_eq_none (h : lowercase word ∈ names)
    (hBlank : ∀ c, operands.head? = some c → isBlank c = true)
    (hColon : ∀ rest, Line.skipSpaces operands ≠ ':' :: rest) :
    Line.label? ('.' :: (word ++ operands)) = none := by
  rw [label?_line h hBlank]
  split
  · next hEq => exact absurd hEq (hColon _)
  · rfl

theorem mem_labels_line (h : lowercase word ∈ names)
    (hBlank : ∀ c, operands.head? = some c → isBlank c = true) {rest : Text}
    (hColon : Line.skipSpaces operands = ':' :: rest) :
    '.' :: word ∈ (Line.labels ('.' :: (word ++ operands))).1 := by
  have hLabel : Line.label? ('.' :: (word ++ operands)) = some ('.' :: word, rest) := by
    simp only [label?_line h hBlank, hColon]
  rw [Line.labels]
  split
  · next hNone => cases hLabel.symm.trans hNone
  · next hSome =>
    cases hLabel.symm.trans hSome
    exact List.mem_cons_self

end Directive

/-- Two spellings of the name of a directive that opens no macro. -/
structure Spellings where
  word : Text
  other : Text
  known : lowercase word ∈ Directive.names
  same : lowercase other = lowercase word
  notMacro : lowercase word ≠ "macro".toList

namespace Spellings

variable (s : Spellings)

theorem known_other : lowercase s.other ∈ Directive.names := s.same ▸ s.known

/-- The second text is the first, or has the directive at its front in the other spelling. -/
inductive Respells : Text → Text → Prop
  | same (t : Text) : Respells t t
  | directive {operands : Text} (h : ∀ c, operands.head? = some c → isBlank c = true) :
      Respells ('.' :: (s.word ++ operands)) ('.' :: (s.other ++ operands))

variable {s} {f : Text → Option Text} {t u : Text}

/-- Names in the operands are replaced; the directive is not, if it is no name. -/
theorem Respells.substitute (hWord : f ('.' :: s.word) = none) (hOther : f ('.' :: s.other) = none)
    (h : s.Respells t u) : s.Respells (substitute f t) (substitute f u) := by
  cases h with
  | same => exact .same _
  | directive hBlank =>
    have hStop := fun c hc => isIdentChar_of_isBlank (hBlank c hc)
    rw [← List.cons_append, ← List.cons_append,
      substitute_append (Directive.isIdentifier_dot s.known) hWord hStop,
      substitute_append (Directive.isIdentifier_dot s.known_other) hOther hStop]
    exact .directive (isBlank_head?_substitute hBlank)

end Spellings

end NiosBoard
