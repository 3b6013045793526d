import NiosBoard.Proofs.Lists
import NiosBoard.Proofs.Text.LabelledLine
import NiosBoard.Proofs.Text.Literals

/-! # Lists of operands

A list of operands is cut at its commas outside literals and parentheses and nowhere else. So operands
that close what they open come out of a list as they went in, whatever literals and parentheses they
hold.
-/

namespace NiosBoard.Text

/-! ### Where a list is cut -/

/-- How much deeper in parentheses the text is after the character. -/
def nestingOf (c : Char) : Int := if c = '(' then 1 else if c = ')' then -1 else 0

/-- How much deeper in parentheses the text ends; those in literals do not count. -/
def nestingFrom : Scan → Text → Int
  | _, [] => 0
  | s, c :: rest => (if s.plain c then nestingOf c else 0) + nestingFrom (s.next c) rest

/-- Read from this position on, the text ends outside literals and parentheses. -/
def Ends (s : Scan) (depth : Int) (t : Text) : Prop :=
  s.after t = .outside ∧ depth + nestingFrom s t = 0

/-- Read from this position on, the text has no comma outside literals and parentheses. -/
def Uncut (s : Scan) (depth : Int) (t : Text) : Prop :=
  ∀ before after, t = before ++ ',' :: after → ¬ Ends s depth before

/-- The pieces between the commas outside literals and parentheses. -/
structure CutAtCommas (t : Text) (pieces : List Text) : Prop where
  nonempty : pieces ≠ []
  joined : [','].intercalate pieces = t
  uncut : ∀ p ∈ pieces, Uncut .outside 0 p
  /-- A comma comes behind every piece but the last. -/
  ends : ∀ p ∈ pieces.dropLast, Ends .outside 0 p

/-- The operands of a text: none if it is blank, otherwise its pieces without the blanks around. -/
def Operands (t : Text) (operands : List Text) : Prop :=
  (∀ c ∈ t, isBlank c = true) ∧ operands = [] ∨
    ¬ (∀ c ∈ t, isBlank c = true) ∧ ∃ pieces, CutAtCommas t pieces ∧ operands = pieces.map trim

theorem depthAfter_eq (depth : Int) (c : Char) : depthAfter depth c = depth + nestingOf c := by
  simp only [depthAfter, nestingOf, beq_iff_eq]
  split
  · rfl
  · split <;> omega

section Cuts

variable {s : Scan} {depth : Int} {t : Text}

/-- The depth behind a character as the splitter keeps it. -/
theorem ends_cons_iff (c : Char) :
    Ends s depth (c :: t) ↔ Ends (s.next c) (if s.plain c then depthAfter depth c else depth) t := by
  rw [Ends, Ends, Scan.after_cons, nestingFrom, depthAfter_eq]
  split <;> simp [Int.add_assoc]

theorem uncut_cons_iff (c : Char) :
    Uncut s depth (c :: t) ↔ ¬ (c = ',' ∧ Ends s depth []) ∧
      Uncut (s.next c) (if s.plain c then depthAfter depth c else depth) t := by
  constructor
  · intro h
    refine ⟨fun ⟨hComma, hEnds⟩ => h [] t (by rw [hComma]; rfl) hEnds, fun before after hText => ?_⟩
    rw [← ends_cons_iff]
    exact h (c :: before) after (by rw [hText]; rfl)
  · rintro ⟨hFirst, hRest⟩ before after hText
    cases before with
    | nil => exact fun hEnds => hFirst ⟨(List.cons.inj hText).1, hEnds⟩
    | cons d before =>
      obtain ⟨rfl, rfl⟩ := List.cons.inj hText
      rw [ends_cons_iff]
      exact hRest before after rfl

theorem cut_iff (c : Char) :
    (s.plain c && c == ',' && depth == 0) = true ↔ c = ',' ∧ Ends s depth [] := by
  have hQuote : c = ',' → isQuote c = false := by
    rintro rfl
    rfl
  cases s <;> simp [Ends, nestingFrom, Scan.plain]
  exact fun _ => hQuote

theorem unsplit_iff : Unsplit s depth t ↔ Uncut s depth t ∧ Ends s depth t := by
  induction t generalizing s depth with
  | nil => simp [Unsplit, Uncut, Ends, nestingFrom]
  | cons c t ih =>
    rw [Unsplit, ih, uncut_cons_iff, ends_cons_iff, ← cut_iff, and_assoc, Bool.not_eq_true]

theorem piecesFrom_of_uncut (h : Uncut s depth t) : piecesFrom s depth t = [t] := by
  induction t generalizing s depth with
  | nil => rfl
  | cons c t ih =>
    obtain ⟨hFirst, hRest⟩ := (uncut_cons_iff c).mp h
    rw [piecesFrom, if_neg (by rwa [cut_iff]), ih hRest]

/-- Up to a comma that separates operands, or to the end. -/
theorem uncut_or_unsplit (s : Scan) (depth : Int) (t : Text) :
    Uncut s depth t ∨ ∃ before after, t = before ++ ',' :: after ∧ Unsplit s depth before := by
  induction t generalizing s depth with
  | nil => exact .inl fun before after h => by simp at h
  | cons c t ih =>
    by_cases hCut : c = ',' ∧ Ends s depth []
    · obtain ⟨rfl, hEnds⟩ := hCut
      exact .inr ⟨[], t, rfl, unsplit_iff.mpr ⟨fun before after h => by simp at h, hEnds⟩⟩
    · rcases ih (s.next c) (if s.plain c then depthAfter depth c else depth) with
        hUncut | ⟨before, after, rfl, hUnsplit⟩
      · exact .inl ((uncut_cons_iff c).mpr ⟨hCut, hUncut⟩)
      · refine .inr ⟨c :: before, after, rfl, ?_, hUnsplit⟩
        rwa [← Bool.not_eq_true, cut_iff]

end Cuts

theorem piecesFrom_intercalate {pieces : List Text} {last : Text}
    (h : ∀ p ∈ pieces, Unsplit .outside 0 p) (hLast : Uncut .outside 0 last) :
    piecesFrom .outside 0 ([','].intercalate (pieces ++ [last])) = pieces ++ [last] := by
  induction pieces with
  | nil =>
    rw [List.nil_append, List.intercalate_singleton]
    exact piecesFrom_of_uncut hLast
  | cons p pieces ih =>
    rw [List.forall_mem_cons] at h
    rw [List.cons_append, List.intercalate_cons_of_ne_nil (by simp), List.append_assoc,
      List.singleton_append, h.1.piecesFrom_append_comma, ih h.2]

theorem CutAtCommas.piecesFrom_eq {t : Text} {pieces : List Text} (h : CutAtCommas t pieces) :
    piecesFrom .outside 0 t = pieces := by
  obtain ⟨hNonempty, rfl, hUncut, hEnds⟩ := h
  rw [← List.dropLast_append_getLast hNonempty]
  refine piecesFrom_intercalate (fun p hp => unsplit_iff.mpr ⟨?_, hEnds p hp⟩)
    (hUncut _ (List.getLast_mem hNonempty))
  exact hUncut p (List.dropLast_subset _ hp)

theorem cutAtCommas_piecesFrom (t : Text) : CutAtCommas t (piecesFrom .outside 0 t) := by
  induction hLength : t.length using Nat.strong_induction_on generalizing t with
  | _ n ih =>
    rcases uncut_or_unsplit .outside 0 t with hUncut | ⟨before, after, rfl, hUnsplit⟩
    · rw [piecesFrom_of_uncut hUncut]
      exact ⟨by simp, List.intercalate_singleton, by simpa using hUncut, by simp⟩
    · have hLt : after.length < n := by
        rw [← hLength, List.length_append, List.length_cons]
        omega
      obtain ⟨hNonempty, hJoined, hUncut, hEnds⟩ := ih after.length hLt after rfl
      obtain ⟨hFirst, hFirstEnds⟩ := unsplit_iff.mp hUnsplit
      rw [hUnsplit.piecesFrom_append_comma]
      refine ⟨by simp, ?_, List.forall_mem_cons.mpr ⟨hFirst, hUncut⟩, ?_⟩
      · rw [List.intercalate_cons_of_ne_nil hNonempty, hJoined]
        simp
      · rw [List.dropLast_cons_of_ne_nil hNonempty]
        exact List.forall_mem_cons.mpr ⟨hFirstEnds, hEnds⟩

theorem trim_eq_nil_iff {t : Text} : trim t = [] ↔ ∀ c ∈ t, isBlank c = true := by
  obtain ⟨blanks, hText, hBlanks⟩ := eq_append_trim_append t
  constructor
  · intro h c hc
    rw [hText, h, List.nil_append] at hc
    rcases List.mem_append.mp hc with hc | hc
    · exact List.mem_takeWhile_imp hc
    · exact hBlanks c hc
  · intro h
    rw [trim, trimStart, List.dropWhile_eq_nil_iff.mpr h]
    rfl

theorem splitOperands_of_blank {t : Text} (h : ∀ c ∈ t, isBlank c = true) :
    splitOperands t = [] := if_pos (trim_eq_nil_iff.mpr h)

theorem splitOperands_of_not_blank {t : Text} (h : ¬ ∀ c ∈ t, isBlank c = true) :
    splitOperands t = (piecesFrom .outside 0 t).map trim := if_neg (mt trim_eq_nil_iff.mp h)

theorem splitOperands_eq_nil_iff {t : Text} : splitOperands t = [] ↔ ∀ c ∈ t, isBlank c = true := by
  refine ⟨fun h => ?_, splitOperands_of_blank⟩
  by_contra hBlank
  rw [splitOperands_of_not_blank hBlank, List.map_eq_nil_iff] at h
  exact piecesFrom_ne_nil _ _ _ h

theorem splitOperands_eq_iff {t : Text} {operands : List Text} :
    splitOperands t = operands ↔ Operands t operands := by
  by_cases hBlank : ∀ c ∈ t, isBlank c = true
  · rw [splitOperands_of_blank hBlank]
    rw [Operands, or_iff_left fun h => h.1 hBlank, and_iff_right hBlank]
    exact eq_comm
  · rw [splitOperands_of_not_blank hBlank, Operands, or_iff_right fun h => hBlank h.1]
    constructor
    · rintro rfl
      exact ⟨hBlank, _, cutAtCommas_piecesFrom t, rfl⟩
    · rintro ⟨-, pieces, h, rfl⟩
      rw [h.piecesFrom_eq]

/-! ### Operands that close what they open -/

/-- Every literal is closed, parentheses outside literals are properly nested, and commas outside
literals are inside parentheses, where the text itself may stand. -/
inductive WellNested : (inside : Bool) → Text → Prop
  | nil {inside : Bool} : WellNested inside []
  | char {inside : Bool} {c : Char} {t : Text} (hQuote : isQuote c = false) (hOpen : c ≠ '(')
      (hClose : c ≠ ')') (hComma : c = ',' → inside = true) (h : WellNested inside t) :
      WellNested inside (c :: t)
  | literal {inside : Bool} {l t : Text} (hLiteral : ClosedLiteral l) (h : WellNested inside t) :
      WellNested inside (l ++ t)
  | group {inside : Bool} {g t : Text} (hGroup : WellNested true g) (h : WellNested inside t) :
      WellNested inside ('(' :: (g ++ ')' :: t))

theorem WellNested.unsplit_append_iff {inside : Bool} {t : Text} (h : WellNested inside t)
    {depth : Int} (hDepth : 0 ≤ depth) (hInside : inside = true → 0 < depth) (u : Text) :
    Unsplit .outside depth (t ++ u) ↔ Unsplit .outside depth u := by
  induction h generalizing depth u with
  | nil => rfl
  | @char inside c t hQuote hOpen hClose hComma _ ih =>
    have hCut : (Scan.outside.plain c && c == ',' && depth == 0) = false := by
      rw [← Bool.not_eq_true]
      intro hCut
      simp only [Bool.and_eq_true, beq_iff_eq] at hCut
      have := hInside (hComma hCut.1.2)
      omega
    rw [List.cons_append, Unsplit, hCut, ← ih hDepth hInside u]
    simp [Scan.plain, Scan.next, hQuote, depthAfter, hOpen, hClose]
  | @literal inside l t hLiteral _ ih =>
    obtain ⟨hCovered, hAfter⟩ := hLiteral.covered
    rw [List.append_assoc, hCovered.unsplit_append_iff, hAfter, ih hDepth hInside]
  | @group inside g t _ _ ihGroup ih =>
    rw [List.cons_append, List.append_assoc, Unsplit]
    show (_ ∧ Unsplit .outside (depth + 1) (g ++ ')' :: (t ++ u))) ↔ _
    rw [ihGroup (by omega) (fun _ => by omega), Unsplit]
    show (_ ∧ _ ∧ Unsplit .outside (depth + 1 - 1) (t ++ u)) ↔ _
    rw [Int.add_sub_cancel, ih hDepth hInside]
    simp [Scan.plain]

theorem WellNested.of_plain {inside : Bool} {t u : Text} (h : ∀ c ∈ t, IsPlain c)
    (hRest : WellNested inside u) : WellNested inside (t ++ u) := by
  induction t with
  | nil => exact hRest
  | cons c t ih =>
    obtain ⟨⟨hQuote, hComma, hOpen, hClose⟩, hText⟩ := List.forall_mem_cons.mp h
    exact .char hQuote hOpen hClose (fun hc => absurd hc hComma) (ih hText)

/-- An operand with blanks around it. -/
def Padded (operand t : Text) : Prop :=
  ∃ left right, t = left ++ (operand ++ right) ∧ (∀ c ∈ left, isBlank c = true) ∧
    ∀ c ∈ right, isBlank c = true

theorem Padded.trim_eq {operand t : Text} (h : Padded operand t) : trim t = trim operand := by
  obtain ⟨left, right, rfl, hLeft, hRight⟩ := h
  rw [trim_blanks_append hLeft, trim_append_blanks hRight]

theorem Padded.unsplit {operand t : Text} (h : Padded operand t) (hNested : WellNested false operand) :
    Unsplit .outside 0 t := by
  obtain ⟨left, right, rfl, hLeft, hRight⟩ := h
  rw [Text.unsplit_append_iff fun c hc => isPlain_of_isBlank (hLeft c hc),
    hNested.unsplit_append_iff (Int.le_refl 0) nofun]
  exact unsplit_of_forall fun c hc => isPlain_of_isBlank (hRight c hc)

theorem trimStart_trimStart (t : Text) : trimStart (trimStart t) = trimStart t :=
  dropWhile_isBlank_eq_self fun _ hc => isBlank_head?_dropWhile hc

theorem memoryOperand?_append (offset : Text) {base : Text} (h : '(' ∉ base) :
    memoryOperand? (offset ++ '(' :: (base ++ [')'])) = some (trim offset, trim base) := by
  have hStart : trimStart (offset ++ '(' :: (base ++ [')'])) =
      trimStart offset ++ '(' :: (base ++ [')']) := by
    rw [trimStart, List.dropWhile_append, trimStart]
    split
    · next hEmpty =>
      rw [List.isEmpty_iff.mp hEmpty]
      rfl
    · rfl
  have hReverse : (trimStart offset ++ '(' :: (base ++ [')'])).reverse =
      ')' :: (base.reverse ++ '(' :: (trimStart offset).reverse) := by
    simp
  have hTrim : (trim (offset ++ '(' :: (base ++ [')']))).reverse =
      ')' :: (base.reverse ++ '(' :: (trimStart offset).reverse) := by
    rw [trim, hStart, trimEnd, List.reverse_reverse, hReverse,
      List.dropWhile_cons_of_neg (by decide)]
  have hInner : ∀ c ∈ base.reverse, (c != '(') = true := by
    intro c hc
    rw [bne_iff_ne]
    rintro rfl
    exact h (List.mem_reverse.mp hc)
  unfold memoryOperand?
  rw [hTrim]
  simp only [List.dropWhile_append_of_pos hInner, List.takeWhile_append_of_pos hInner]
  rw [List.takeWhile_cons_of_neg (by decide), List.dropWhile_cons_of_neg (by decide), List.append_nil,
    List.reverse_reverse]
  simp only [List.reverse_reverse, trim, trimStart_trimStart]

theorem map_trim_of_padded {operands padded : List Text} (h : List.Forall₂ Padded operands padded)
    (hTrim : ∀ p ∈ operands, trim p = p) : padded.map trim = operands := by
  induction h with
  | nil => rfl
  | cons hFirst _ ih =>
    rw [List.forall_mem_cons] at hTrim
    rw [List.map_cons, hFirst.trim_eq, hTrim.1, ih hTrim.2]

theorem not_blank_intercalate {operands padded : List Text} (hNonempty : operands ≠ [[]]) (hNil : padded ≠ [])
    (h : padded.map trim = operands) : ¬ ∀ c ∈ [','].intercalate padded, isBlank c = true := by
  subst h
  intro hBlank
  match padded with
  | [] => exact hNil rfl
  | [u] =>
    rw [List.intercalate_singleton] at hBlank
    exact hNonempty (by rw [List.map_singleton, trim_eq_nil_iff.mpr hBlank])
  | u :: v :: rest =>
    rw [List.intercalate_cons_cons] at hBlank
    exact absurd (hBlank ',' (by simp)) (by decide)

/-- Operands come out of a list as they went in, whatever blanks are around them. Only blank texts have
no operands, and an operand with a base at its end is taken apart there. -/
theorem splitOperands_undoes_joining {operands padded : List Text}
    (hOperands : ∀ p ∈ operands, trim p = p ∧ WellNested false p) (hNonempty : operands ≠ [[]])
    (hPadded : List.Forall₂ Padded operands padded) :
    splitOperands ([','].intercalate padded) = operands ∧
      (∀ t, splitOperands t = [] ↔ ∀ c ∈ t, isBlank c = true) ∧
      ∀ offset base, '(' ∉ base →
        memoryOperand? (offset ++ '(' :: (base ++ [')'])) = some (trim offset, trim base) := by
  refine ⟨?_, fun t => splitOperands_eq_nil_iff, fun offset base => memoryOperand?_append offset⟩
  by_cases hNil : padded = []
  · subst hNil
    cases hPadded
    rfl
  have hUnsplit : ∀ u ∈ padded, Unsplit .outside 0 u := by
    intro u hu
    obtain ⟨p, hp, h⟩ := exists_of_mem_forall₂ hPadded.flip hu
    exact Padded.unsplit h (hOperands p hp).2
  have hCut : CutAtCommas ([','].intercalate padded) padded :=
    ⟨hNil, rfl, fun u hu => (unsplit_iff.mp (hUnsplit u hu)).1,
      fun u hu => (unsplit_iff.mp (hUnsplit u (List.dropLast_subset _ hu))).2⟩
  have hTrimmed : padded.map trim = operands :=
    map_trim_of_padded hPadded fun p hp => (hOperands p hp).1
  rw [splitOperands_of_not_blank (not_blank_intercalate hNonempty hNil hTrimmed),
    hCut.piecesFrom_eq, hTrimmed]

/-- A relocation over a literal that is a parenthesis, a literal that is a comma, nothing, and a string
with an escaped quote. -/
def trickyOperands : List Text :=
  ["%lo(a, ')')(r3)".toList, "','".toList, [], "\"(\\\",\"".toList]

theorem wellNested_trickyOperands : ∀ p ∈ trickyOperands, trim p = p ∧ WellNested false p := by
  have hParenthesis : ClosedLiteral "')'".toList :=
    ⟨'\'', [')'], rfl, .char (by decide) (by decide) .nil, rfl⟩
  have hComma : ClosedLiteral "','".toList :=
    ⟨'\'', [','], rfl, .char (by decide) (by decide) .nil, rfl⟩
  have hString : ClosedLiteral "\"(\\\",\"".toList :=
    ⟨'"', "(\\\",".toList, rfl, .char (by decide) (by decide)
      (.escape (.char (by decide) (by decide) .nil)), rfl⟩
  have hGroup : WellNested true "a, ')'".toList :=
    .of_plain (t := "a".toList) (by simp [IsPlain, isQuote]) (.char rfl (by decide) (by decide)
      (fun _ => rfl) (.of_plain (t := " ".toList) (by simp [IsPlain, isQuote])
        (.literal hParenthesis .nil)))
  have hBase : WellNested true "r3".toList :=
    .of_plain (t := "r3".toList) (u := []) (by simp [IsPlain, isQuote]) .nil
  simp only [trickyOperands, List.forall_mem_cons]
  refine ⟨⟨rfl, ?_⟩, ⟨rfl, .literal hComma .nil⟩, ⟨rfl, .nil⟩, ⟨rfl, .literal hString .nil⟩,
    List.forall_mem_nil _⟩
  exact .of_plain (t := "%lo".toList) (by simp [IsPlain, isQuote]) (.group hGroup (.group hBase .nil))

/-- Commas, quotes and parentheses inside literals and parentheses separate nothing. -/
theorem splitOperands_undoes_joining_tricky :
    (∀ p ∈ trickyOperands, trim p = p ∧ WellNested false p) ∧
      splitOperands " %lo(a, ')')(r3)\t,',' , ,\"(\\\",\" ".toList = trickyOperands ∧
      memoryOperand? "%lo(a, ')')(r3)".toList = some ("%lo(a, ')')".toList, "r3".toList) := by
  have hSpace : ∀ c ∈ [' '], isBlank c = true := List.forall_mem_singleton.mpr rfl
  have hBehind (p : Text) : Padded p (p ++ [' ']) :=
    ⟨[], [' '], rfl, List.forall_mem_nil _, hSpace⟩
  have hPadded : List.Forall₂ Padded trickyOperands
      [" %lo(a, ')')(r3)\t".toList, "',' ".toList, " ".toList, "\"(\\\",\" ".toList] :=
    .cons ⟨[' '], ['\t'], rfl, hSpace, List.forall_mem_singleton.mpr rfl⟩
      (.cons (hBehind _) (.cons (hBehind _) (.cons (hBehind _) .nil)))
  obtain ⟨hSplit, -, hBase⟩ := splitOperands_undoes_joining wellNested_trickyOperands (by decide) hPadded
  exact ⟨wellNested_trickyOperands, hSplit, hBase "%lo(a, ')')".toList "r3".toList (by decide)⟩

end NiosBoard.Text
