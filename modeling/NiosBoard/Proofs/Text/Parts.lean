import NiosBoard.Proofs.Text.LabelledLine
import NiosBoard.Proofs.Text.Literals

/-! # Substitution part by part

A line consists of literals, of runs of identifier characters that are as long as they can be, and of
other characters, and it is cut into them in one way. Of these parts substitution replaces the runs
that are identifiers, each by the answer for its whole text, and what it puts there is not read again.
-/

namespace NiosBoard.Text

inductive Part where
  | literal (written : Text)
  | run (written : Text)
  | single (c : Char)
  deriving DecidableEq, Repr

def Part.text : Part → Text
  | .literal t => t
  | .run t => t
  | .single c => [c]

/-- Cut off in front of this rest of the line, the part is a whole one. -/
inductive Part.Before : Part → Text → Prop
  | closed {l rest : Text} (h : ClosedLiteral l) : Before (.literal l) rest
  | unclosed {l : Text} (h : OpenLiteral l) : Before (.literal l) []
  | run {r rest : Text} (hNonempty : r ≠ []) (hRun : ∀ c ∈ r, isIdentChar c = true)
      (hStop : ∀ c, rest.head? = some c → isIdentChar c = false) : Before (.run r) rest
  | single {c : Char} {rest : Text} (hQuote : isQuote c = false) (hIdent : isIdentChar c = false) :
      Before (.single c) rest

/-- The text consists of these parts. -/
inductive Parts : Text → List Part → Prop
  | nil : Parts [] []
  | cons {p : Part} {rest : Text} {ps : List Part} (hPart : p.Before rest) (h : Parts rest ps) :
      Parts (p.text ++ rest) (p :: ps)

/-! ### One way to cut a text -/

/-- What the first character tells about a part. -/
def Part.StartsWith : Part → Char → Prop
  | .literal _, c => isQuote c = true
  | .run _, c => isIdentChar c = true
  | .single d, c => c = d ∧ isQuote c = false ∧ isIdentChar c = false

theorem Part.Before.exists_cons {p : Part} {rest : Text} (h : p.Before rest) :
    ∃ c t, p.text = c :: t ∧ p.StartsWith c := by
  cases h with
  | closed h =>
    obtain ⟨quote, body, hQuote, -, rfl⟩ := h
    exact ⟨quote, _, rfl, hQuote⟩
  | unclosed h =>
    obtain ⟨quote, body, hQuote, -, rfl | rfl⟩ := h
    · exact ⟨quote, _, rfl, hQuote⟩
    · exact ⟨quote, _, rfl, hQuote⟩
  | @run r _ hNonempty hRun =>
    obtain ⟨c, t, rfl⟩ := List.exists_cons_of_ne_nil hNonempty
    exact ⟨c, t, rfl, hRun c List.mem_cons_self⟩
  | @single c _ hQuote hIdent => exact ⟨c, [], rfl, rfl, hQuote, hIdent⟩

theorem Part.Before.unique {p p' : Part} {rest rest' : Text} (h : p.Before rest)
    (h' : p'.Before rest') (hEq : p.text ++ rest = p'.text ++ rest') : p = p' ∧ rest = rest' := by
  -- parts of different kinds do not start with the same character
  have hFirst : ∃ c, p.StartsWith c ∧ p'.StartsWith c := by
    obtain ⟨c, t, hText, hc⟩ := h.exists_cons
    obtain ⟨c', t', hText', hc'⟩ := h'.exists_cons
    rw [hText, hText'] at hEq
    obtain ⟨rfl, -⟩ := List.cons.inj hEq
    exact ⟨c, hc, hc'⟩
  have hNever : ∀ c, isIdentChar c = true → isQuote c = true → False := by
    intro c hIdent hQuote
    rw [isQuote_of_isIdentChar hIdent] at hQuote
    cases hQuote
  obtain ⟨c, hc, hc'⟩ := hFirst
  cases h with
  | closed hl =>
    cases h' with
    | closed hl' =>
      obtain ⟨rfl, rfl⟩ := hl.append_inj hl' hEq
      exact ⟨rfl, rfl⟩
    | unclosed hl' => exact absurd (hEq.trans (List.append_nil _)) (hl.append_ne_openLiteral hl')
    | run => exact (hNever c hc' hc).elim
    | single => simp [Part.StartsWith, hc'.2.1] at hc
  | unclosed hl =>
    cases h' with
    | closed hl' =>
      exact absurd (hEq.symm.trans (List.append_nil _)) (hl'.append_ne_openLiteral hl)
    | unclosed => exact ⟨congrArg Part.literal (List.append_cancel_right hEq), rfl⟩
    | run => exact (hNever c hc' hc).elim
    | single => simp [Part.StartsWith, hc'.2.1] at hc
  | run hNonempty hRun hStop =>
    cases h' with
    | closed => exact (hNever c hc hc').elim
    | unclosed => exact (hNever c hc hc').elim
    | run _ hRun' hStop' =>
      obtain ⟨hTake, hDrop⟩ := takeWhile_append_eq hRun hStop
      obtain ⟨hTake', hDrop'⟩ := takeWhile_append_eq hRun' hStop'
      simp only [Part.text] at hEq
      rw [hEq] at hTake hDrop
      exact ⟨congrArg Part.run (hTake.symm.trans hTake'), hDrop.symm.trans hDrop'⟩
    | single => simp [Part.StartsWith, hc'.2.2] at hc
  | single =>
    cases h' with
    | closed => simp [Part.StartsWith, hc.2.1] at hc'
    | unclosed => simp [Part.StartsWith, hc.2.1] at hc'
    | run => simp [Part.StartsWith, hc.2.2] at hc'
    | single =>
      obtain ⟨rfl, rfl⟩ := List.cons.inj hEq
      exact ⟨rfl, rfl⟩

theorem Parts.unique {t : Text} {ps qs : List Part} (h : Parts t ps) (h' : Parts t qs) : ps = qs := by
  induction h generalizing qs with
  | nil =>
    generalize hText : ([] : Text) = t at h'
    cases h' with
    | nil => rfl
    | cons hPart _ =>
      obtain ⟨c, t, hCons, -⟩ := hPart.exists_cons
      rw [hCons] at hText
      cases hText
  | @cons p rest ps hPart _ ih =>
    generalize hText : p.text ++ rest = t at h'
    cases h' with
    | nil =>
      obtain ⟨c, t, hCons, -⟩ := hPart.exists_cons
      rw [hCons] at hText
      cases hText
    | cons hPart' hRest' =>
      obtain ⟨rfl, rfl⟩ := hPart.unique hPart' hText
      rw [ih hRest']

/-- Every text starts with a whole part. -/
theorem exists_before (c : Char) (t : Text) :
    ∃ (p : Part) (rest : Text), p.Before rest ∧ c :: t = p.text ++ rest := by
  cases hQuote : isQuote c with
  | true =>
    rcases closedLiteral_or_openLiteral hQuote t with ⟨l, after, hl, hText⟩ | hl
    · exact ⟨.literal l, after, .closed hl, hText⟩
    · exact ⟨.literal (c :: t), [], .unclosed hl, (List.append_nil _).symm⟩
  | false =>
    cases hIdent : isIdentChar c with
    | true =>
      refine ⟨.run (c :: t.takeWhile isIdentChar), t.dropWhile isIdentChar,
        .run (List.cons_ne_nil _ _) ?_ ?_, by simp [Part.text]⟩
      · exact List.forall_mem_cons.mpr ⟨hIdent, fun x hx => List.mem_takeWhile_imp hx⟩
      · intro x hx
        simpa [hx] using List.head?_dropWhile_not isIdentChar t
    | false => exact ⟨.single c, t, .single hQuote hIdent, rfl⟩

theorem exists_parts (t : Text) : ∃ ps, Parts t ps := by
  induction hLength : t.length using Nat.strong_induction_on generalizing t with
  | _ n ih =>
    cases t with
    | nil => exact ⟨[], .nil⟩
    | cons c t =>
      obtain ⟨p, rest, hPart, hText⟩ := exists_before c t
      obtain ⟨d, u, hCons, -⟩ := hPart.exists_cons
      have hLt : rest.length < n := by
        rw [← hLength, hText, hCons, List.length_append, List.length_cons]
        omega
      obtain ⟨ps, hRest⟩ := ih rest.length hLt rest rfl
      exact ⟨p :: ps, hText ▸ .cons hPart hRest⟩

/-! ### What is replaced -/

/-- The identifiers among the parts, in order. A run that starts with a digit is none, and since a
backslash is no identifier character, an identifier behind one is a run of its own. -/
def names : List Part → List Text
  | [] => []
  | .run r :: ps => if isIdentifier r then r :: names ps else names ps
  | _ :: ps => names ps

/-- An identifier comes next. -/
def NameFirst : List Part → Prop
  | .run r :: _ => isIdentifier r = true
  | _ => False

instance : DecidablePred NameFirst
  | [] => inferInstanceAs (Decidable False)
  | .run r :: _ => inferInstanceAs (Decidable (isIdentifier r = true))
  | .literal _ :: _ => inferInstanceAs (Decidable False)
  | .single _ :: _ => inferInstanceAs (Decidable False)

/-- The text of the parts with the identifiers replaced. Each of them uses up one answer, and a
backslash goes away with an identifier right behind it that is replaced. -/
def filled : List Part → List (Option Text) → Text
  | [], _ => []
  | .literal l :: ps, answers => l ++ filled ps answers
  | .run r :: ps, answers =>
    if isIdentifier r then answers.head?.join.getD r ++ filled ps answers.tail
    else r ++ filled ps answers
  | .single c :: ps, answers =>
    if c = '\\' ∧ NameFirst ps ∧ answers.head?.join.isSome then filled ps answers
    else c :: filled ps answers

/-- The text of the parts with each identifier replaced by the answer for it, if there is one. -/
def replaced (f : Text → Option Text) (ps : List Part) : Text := filled ps ((names ps).map f)

theorem NameFirst.exists_run {ps : List Part} (h : NameFirst ps) :
    ∃ r rest, ps = .run r :: rest ∧ isIdentifier r = true := by
  match ps, h with
  | .run r :: rest, h => exact ⟨r, rest, rfl, h⟩

section Replaced

variable (f : Text → Option Text) {r : Text} {ps : List Part}

theorem replaced_literal (l : Text) : replaced f (.literal l :: ps) = l ++ replaced f ps := rfl

theorem replaced_identifier (h : isIdentifier r = true) :
    replaced f (.run r :: ps) = (f r).getD r ++ replaced f ps := by
  simp [replaced, names, filled, h]

theorem replaced_run (h : isIdentifier r = false) :
    replaced f (.run r :: ps) = r ++ replaced f ps := by
  simp [replaced, names, filled, h]

theorem replaced_backslash (h : isIdentifier r = true) :
    replaced f (.single '\\' :: .run r :: ps) = (f r).getD ('\\' :: r) ++ replaced f ps := by
  cases hAnswer : f r <;> simp [replaced, names, filled, NameFirst, h, hAnswer]

theorem replaced_single {c : Char} (h : ¬ (c = '\\' ∧ NameFirst ps)) :
    replaced f (.single c :: ps) = c :: replaced f ps := by
  rw [replaced, filled, if_neg fun hDrop => h ⟨hDrop.1, hDrop.2.1⟩]
  rfl

theorem nameFirst_append_run (h : isIdentifier r = false) (before : List Part) :
    NameFirst (before ++ .run r :: ps) ↔ NameFirst before := by
  cases before with
  | nil => simp [NameFirst, h]
  | cons p before => cases p <;> rfl

/-- A run that is no identifier stays where it is. -/
theorem replaced_append_run (h : isIdentifier r = false) (before : List Part) :
    replaced f (before ++ .run r :: ps) = replaced f before ++ (r ++ replaced f ps) := by
  induction before with
  | nil => exact replaced_run f h
  | cons p before ih =>
    rw [List.cons_append]
    cases p with
    | literal l => rw [replaced_literal, replaced_literal, ih, List.append_assoc]
    | run r' =>
      cases hName : isIdentifier r' with
      | true =>
        rw [replaced_identifier f hName, replaced_identifier f hName, ih, List.append_assoc]
      | false => rw [replaced_run f hName, replaced_run f hName, ih, List.append_assoc]
    | single c =>
      by_cases hFirst : c = '\\' ∧ NameFirst before
      · obtain ⟨rfl, r', rest, rfl, hName⟩ := hFirst.imp_right NameFirst.exists_run
        rw [List.cons_append, replaced_identifier f hName, replaced_identifier f hName,
          List.append_assoc, List.append_cancel_left_eq] at ih
        rw [List.cons_append, replaced_backslash f hName, replaced_backslash f hName, ih,
          List.append_assoc]
      · have hFirst' : ¬ (c = '\\' ∧ NameFirst (before ++ .run r :: ps)) := by
          rwa [nameFirst_append_run h]
        rw [replaced_single f hFirst, replaced_single f hFirst', ih, List.cons_append]

end Replaced

/-! ### Substitution -/

section Substitute

variable {f : Text → Option Text} {rest : Text}

/-- Behind an identifier character the rest of the run is copied. -/
theorem substituteFrom_inRun {r : Text} (h : ∀ c ∈ r, isIdentChar c = true) :
    substituteFrom f .outside true (r ++ rest) = r ++ substituteFrom f .outside true rest := by
  induction r with
  | nil => rfl
  | cons c r ih =>
    rw [List.forall_mem_cons] at h
    have hSlash : c ≠ '\\' := ne_of_isIdentChar h.1 (by decide)
    rw [List.cons_append, substituteFrom, if_neg (by simp [Scan.plain, isQuote_of_isIdentChar h.1]),
      if_neg (by simpa using hSlash), if_neg (by simp), h.1, ih h.2, List.cons_append]

theorem substitute_run {r : Text} (h : ∀ c ∈ r, isIdentChar c = true)
    (hName : isIdentifier r = false) (hStop : ∀ c, rest.head? = some c → isIdentChar c = false) :
    substitute f (r ++ rest) = r ++ substitute f rest := by
  cases r with
  | nil => rfl
  | cons c r =>
    rw [List.forall_mem_cons] at h
    have hSlash : c ≠ '\\' := ne_of_isIdentChar h.1 (by decide)
    have hStart : isIdentStart c = false := by
      cases hStart : isIdentStart c with
      | false => rfl
      | true =>
        rw [isIdentifier_iff.mpr ⟨c, r, rfl, hStart, h.2⟩] at hName
        cases hName
    rw [substitute, List.cons_append, substituteFrom,
      if_neg (by simp [Scan.plain, isQuote_of_isIdentChar h.1]), if_neg (by simpa using hSlash),
      if_neg (by simp [hStart]), h.1, substituteFrom_inRun h.2, substituteFrom_of_head? true hStop]
    rfl

theorem substitute_single {c : Char} (hQuote : isQuote c = false) (hIdent : isIdentChar c = false)
    (hName : c = '\\' → identifier? rest = none) :
    substitute f (c :: rest) = c :: substitute f rest := by
  rw [substitute, substituteFrom, if_neg (by simp [Scan.plain, hQuote])]
  split
  · next hSlash =>
    split
    · rfl
    · next h => cases (hName (eq_of_beq hSlash)).symm.trans h
  · rw [if_neg (by simp [isIdentStart_eq_false hIdent]), hIdent]
    rfl

theorem substitute_backslash {name : Text} (hName : isIdentifier name = true)
    (hStop : ∀ c, rest.head? = some c → isIdentChar c = false) :
    substitute f ('\\' :: (name ++ rest)) = (f name).getD ('\\' :: name) ++ substitute f rest := by
  have hIdentifier := identifier?_eq_some_iff.mpr ⟨rfl, hName, hStop⟩
  rw [substitute, substituteFrom, if_neg (by decide), if_pos (by decide)]
  split
  · next h => cases hIdentifier.symm.trans h
  · next h =>
    cases hIdentifier.symm.trans h
    rw [substituteFrom_of_head? true hStop]

theorem substitute_literal {l : Text} (h : Covered .outside l) :
    substitute f (l ++ rest) = l ++ substituteFrom f (Scan.outside.after l) false rest :=
  h.substituteFrom_append f rest

end Substitute

/-- No identifier starts where none comes next. -/
theorem Parts.identifier?_eq_none {t : Text} {ps : List Part} (h : Parts t ps)
    (hFirst : ¬ NameFirst ps) : identifier? t = none := by
  cases h with
  | nil => rfl
  | @cons p rest ps hPart _ =>
    cases hName : identifier? (p.text ++ rest) with
    | none => rfl
    | some found =>
      obtain ⟨hText, hIdentifier, hStop⟩ := identifier?_eq_some_iff.mp hName
      have hNonempty : found.1 ≠ [] := by
        intro hNil
        rw [hNil] at hIdentifier
        cases hIdentifier
      have hRun : (Part.run found.1).Before found.2 :=
        .run hNonempty (fun c hc => isIdentChar_of_mem hIdentifier hc) hStop
      obtain ⟨rfl, -⟩ := hPart.unique hRun hText
      exact absurd hIdentifier hFirst

theorem Parts.substitute_eq {f : Text → Option Text} {t : Text} {ps : List Part} (h : Parts t ps) :
    substitute f t = replaced f ps := by
  induction h with
  | nil => exact substitute_nil f
  | @cons p rest ps hPart hRest ih =>
    cases hPart with
    | closed hl =>
      obtain ⟨hCovered, hAfter⟩ := hl.covered
      rw [Part.text, substitute_literal hCovered, hAfter, ← substitute, ih]
      rfl
    | unclosed hl =>
      cases hRest.unique .nil
      rw [Part.text, substitute_literal hl.covered, substituteFrom]
      rfl
    | @run r _ _ hRun hStop =>
      cases hName : isIdentifier r with
      | true => rw [Part.text, substitute_identifier f hName hStop, ih, replaced_identifier f hName]
      | false => rw [Part.text, substitute_run hRun hName hStop, ih, replaced_run f hName]
    | @single c _ hQuote hIdent =>
      by_cases hFirst : c = '\\' ∧ NameFirst ps
      · obtain ⟨rfl, r, after, rfl, hName⟩ := hFirst.imp_right NameFirst.exists_run
        -- behind the backslash the identifier is replaced as it is without it
        cases hRest with
        | cons hNext _ =>
          cases hNext with
          | run _ _ hStop =>
            rw [Part.text, substitute_identifier f hName hStop, replaced_identifier f hName,
              List.append_cancel_left_eq] at ih
            exact (substitute_backslash hName hStop).trans (by rw [ih, replaced_backslash f hName])
      · rw [replaced_single f hFirst, ← ih]
        refine substitute_single hQuote hIdent fun hSlash => ?_
        exact hRest.identifier?_eq_none fun hName => hFirst ⟨hSlash, hName⟩

/-- Exactly the identifiers are replaced for which there is an answer, each looked up once and by its
whole text. A run that starts with a digit stays as it is, and so does a text without answers. -/
theorem substitute_replaces_identifiers (f : Text → Option Text) (t : Text) :
    ∃ ps, Parts t ps ∧ (∀ qs, Parts t qs → qs = ps) ∧
      substitute f t = filled ps ((names ps).map f) ∧
      (∀ before d r after, ps = before ++ .run (d :: r) :: after → d.isDigit = true →
        substitute f t = replaced f before ++ (d :: r ++ replaced f after)) ∧
      ((∀ name ∈ names ps, f name = none) → substitute f t = t) := by
  obtain ⟨ps, hParts⟩ := exists_parts t
  refine ⟨ps, hParts, fun qs h => h.unique hParts, hParts.substitute_eq, ?_, ?_⟩
  · rintro before d r after rfl hDigit
    have hName : isIdentifier (d :: r) = false := by
      rw [← Bool.not_eq_true]
      intro hName
      obtain ⟨_, _, hCons, hStart, -⟩ := isIdentifier_iff.mp hName
      cases hCons
      rw [isDigit_of_isIdentStart hStart] at hDigit
      cases hDigit
    rw [hParts.substitute_eq, replaced_append_run f hName]
  · intro hNone
    have hSame : replaced f ps = replaced (fun _ => none) ps :=
      congrArg (filled ps) (List.map_congr_left hNone)
    rw [hParts.substitute_eq, hSame, ← hParts.substitute_eq, substitute_none]

example : substitute (fun name => if name = ['a'] then some ['r', '4'] else none)
    "x\\\\a 'a' 0xa \\a\"a\"a+éa".toList = "x\\r4 'a' 0xa r4\"a\"r4+ér4".toList := by
  decide +kernel

end NiosBoard.Text
