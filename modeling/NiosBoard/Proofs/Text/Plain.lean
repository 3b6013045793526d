import Mathlib.Data.List.Basic
import NiosBoard.Text.Substitution

/-! # Text that is read as it stands

When trimming, cutting comments, substituting names and splitting into lines leave a text alone.
-/

namespace NiosBoard.Text

theorem lowercase_eq_self {t : Text} (h : ∀ c ∈ t, c.toLower = c) : lowercase t = t :=
  List.map_congr_left h |>.trans (List.map_id t)

theorem isAlphanum_of_isDigit {c : Char} (h : c.isDigit = true) : c.isAlphanum = true := by
  rw [Char.isAlphanum, h, Bool.or_true]

theorem isAlpha_of_isLower {c : Char} (h : c.isLower = true) : c.isAlpha = true := by
  show (c.isUpper || c.isLower) = true
  rw [h, Bool.or_true]

theorem isAlpha_of_isUpper {c : Char} (h : c.isUpper = true) : c.isAlpha = true := by
  show (c.isUpper || c.isLower) = true
  rw [h, Bool.true_or]

theorem isAlphanum_of_isAlphanum_toLower {c : Char} (h : c.toLower.isAlphanum = true) :
    c.isAlphanum = true := by
  unfold Char.toLower at h
  split at h
  · next hUpper => rw [Char.isAlphanum, isAlpha_of_isUpper (decide_eq_true hUpper), Bool.true_or]
  · exact h

theorem isDigit_of_isIdentStart {c : Char} (h : isIdentStart c = true) : c.isDigit = false := by
  simp only [isIdentStart, Bool.or_eq_true, beq_iff_eq] at h
  rcases h with ((h | rfl) | rfl) | rfl
  · rw [← Bool.not_eq_true]
    intro hDigit
    change (decide (65 ≤ c.val ∧ c.val ≤ 90) || (decide (97 ≤ c.val) && decide (c.val ≤ 122))) = true
      at h
    change (decide (48 ≤ c.val) && decide (c.val ≤ 57)) = true at hDigit
    simp only [Bool.or_eq_true, Bool.and_eq_true, decide_eq_true_eq, UInt32.le_iff_toNat_le,
      UInt32.reduceToNat] at h hDigit
    omega
  all_goals decide

theorem isBlank_of_isAlphanum {c : Char} (h : c.isAlphanum = true) : isBlank c = false := by
  change ((decide (65 ≤ c.val ∧ c.val ≤ 90) || (decide (97 ≤ c.val) && decide (c.val ≤ 122))) ||
    (decide (48 ≤ c.val) && decide (c.val ≤ 57))) = true at h
  simp only [Bool.or_eq_true, Bool.and_eq_true, decide_eq_true_eq, UInt32.le_iff_toNat_le] at h
  change ((65 ≤ c.toNat ∧ c.toNat ≤ 90) ∨ 97 ≤ c.toNat ∧ c.toNat ≤ 122) ∨
    48 ≤ c.toNat ∧ c.toNat ≤ 57 at h
  rw [← Bool.not_eq_true]
  simp only [isBlank, Bool.or_eq_true, Bool.and_eq_true, decide_eq_true_eq, beq_iff_eq]
  omega

/-- A run of characters ends where the first one of another kind comes. -/
theorem takeWhile_append_eq {p : Char → Bool} {t rest : Text} (h : ∀ c ∈ t, p c = true)
    (hStop : ∀ c, rest.head? = some c → p c = false) :
    (t ++ rest).takeWhile p = t ∧ (t ++ rest).dropWhile p = rest := by
  rw [List.takeWhile_append_of_pos h, List.dropWhile_append_of_pos h]
  cases rest with
  | nil => exact ⟨List.append_nil t, rfl⟩
  | cons c rest =>
    have hc : ¬ p c = true := by simp [hStop c rfl]
    rw [List.takeWhile_cons_of_neg hc, List.dropWhile_cons_of_neg hc]
    exact ⟨List.append_nil t, rfl⟩

/-! ### Trimming -/

theorem dropWhile_isBlank_eq_self {t : Text} (h : ∀ c, t.head? = some c → isBlank c = false) :
    t.dropWhile isBlank = t := by
  cases t with
  | nil => rfl
  | cons c rest => rw [List.dropWhile_cons_of_neg (by simp [h c rfl])]

theorem trim_eq_self {t : Text} (hHead : ∀ c, t.head? = some c → isBlank c = false)
    (hLast : ∀ c, t.getLast? = some c → isBlank c = false) : trim t = t := by
  have hReverse : ∀ c, t.reverse.head? = some c → isBlank c = false := by
    intro c hc
    exact hLast c (by rwa [List.head?_reverse] at hc)
  rw [trim, trimStart, dropWhile_isBlank_eq_self hHead, trimEnd,
    dropWhile_isBlank_eq_self hReverse, List.reverse_reverse]

theorem isBlank_head?_dropWhile {t : Text} {c : Char} (h : (t.dropWhile isBlank).head? = some c) :
    isBlank c = false := by
  simpa [h] using List.head?_dropWhile_not isBlank t

/-- Trimming leaves no blank at either end. -/
theorem isBlank_ends_trim (t : Text) :
    (∀ c, (trim t).head? = some c → isBlank c = false) ∧
      ∀ c, (trim t).getLast? = some c → isBlank c = false := by
  refine ⟨fun c hc => ?_, fun c hc => ?_⟩
  · have hPrefix : trim t <+: trimStart t :=
      List.reverse_suffix.mp (by
        rw [trim, trimEnd, List.reverse_reverse]
        exact List.dropWhile_suffix isBlank)
    obtain ⟨rest, hRest⟩ := hPrefix
    refine isBlank_head?_dropWhile (t := t) ?_
    rw [← trimStart, ← hRest, List.head?_append, hc]
    rfl
  · rw [trim, trimEnd, List.getLast?_reverse] at hc
    exact isBlank_head?_dropWhile hc

theorem isBlank_ends_of_trim {t : Text} (h : trim t = t) :
    (∀ c, t.head? = some c → isBlank c = false) ∧
      ∀ c, t.getLast? = some c → isBlank c = false := by
  have hEnds := isBlank_ends_trim t
  rwa [h] at hEnds

theorem trim_trim (t : Text) : trim (trim t) = trim t :=
  trim_eq_self (isBlank_ends_trim t).1 (isBlank_ends_trim t).2

theorem trim_eq_self_of_forall {t : Text} (h : ∀ c ∈ t, isBlank c = false) : trim t = t :=
  trim_eq_self (fun c hc => h c (List.mem_of_head? hc)) fun c hc => h c (List.mem_of_getLast? hc)

theorem trim_enclosed {a b : Char} (ha : isBlank a = false) (hb : isBlank b = false) (t : Text) :
    trim (a :: (t ++ [b])) = a :: (t ++ [b]) := by
  refine trim_eq_self (fun c hc => ?_) fun c hc => ?_
  · cases hc
    exact ha
  · rw [← List.cons_append, List.getLast?_concat] at hc
    cases hc
    exact hb

theorem trim_cons_of_isBlank {c : Char} (h : isBlank c = true) (t : Text) :
    trim (c :: t) = trim t := by
  rw [trim, trimStart, List.dropWhile_cons_of_pos h]
  rfl

/-! ### Comments and names -/

theorem stripCommentFrom_append_of_forall {t : Text}
    (h : ∀ c ∈ t, isQuote c = false ∧ c ≠ '#' ∧ c ≠ '/') (u : Text) :
    stripCommentFrom .outside (t ++ u) = t ++ stripCommentFrom .outside u := by
  induction t with
  | nil => rfl
  | cons c rest ih =>
    obtain ⟨hQuote, hHash, hSlash⟩ := h c List.mem_cons_self
    have hNext : Scan.outside.next c = .outside := by simp [Scan.next, hQuote]
    have hOpens : opensComment c (rest ++ u) = false := by simp [opensComment, hHash, hSlash]
    rw [List.cons_append, stripCommentFrom, hOpens, hNext, Bool.and_false,
      if_neg Bool.false_ne_true, ih fun x hx => h x (List.mem_cons_of_mem c hx), List.cons_append]

theorem substitute_nil (f : Text → Option Text) : substitute f [] = [] := by
  rw [substitute, substituteFrom]

theorem substituteFrom_none (s : Scan) (inRun : Bool) (t : Text) :
    substituteFrom (fun _ => none) s inRun t = t := by
  induction s, inRun, t using substituteFrom.induct with
  | case1 => rw [substituteFrom]
  | case2 s inRun c rest hPlain ih => rw [substituteFrom, if_pos hPlain, ih]
  | case3 s inRun c rest hPlain hSlash hName ih =>
    rw [substituteFrom, if_neg hPlain, if_pos hSlash]
    split
    · rw [ih]
    · next h => cases hName.symm.trans h
  | case4 s inRun c rest hPlain hSlash name after hName ih =>
    rw [substituteFrom, if_neg hPlain, if_pos hSlash]
    split
    · next h => cases hName.symm.trans h
    · next h =>
      cases hName.symm.trans h
      rw [ih, Option.getD_none, List.cons_append, append_of_identifier? hName]
  | case5 s inRun c rest hPlain hSlash hStart ih =>
    rw [substituteFrom, if_neg hPlain, if_neg hSlash, if_pos hStart, ih, Option.getD_none,
      List.cons_append, List.takeWhile_append_dropWhile]
  | case6 s inRun c rest hPlain hSlash hStart ih =>
    rw [substituteFrom, if_neg hPlain, if_neg hSlash, if_neg hStart, ih]

theorem substitute_none (t : Text) : substitute (fun _ => none) t = t :=
  substituteFrom_none .outside false t

/-! ### Lines -/

theorem lines_append_newline {l : Text} (hNewline : '\n' ∉ l) (hReturn : '\r' ∉ l) (rest : Text) :
    lines (l ++ '\n' :: rest) = l :: lines rest := by
  induction l with
  | nil => rw [List.nil_append, lines]
  | cons c l ih =>
    rw [List.mem_cons, not_or] at hNewline hReturn
    rw [List.cons_append, lines, ih hNewline.2 hReturn.2]
    · exact fun hEq => hNewline.1 hEq.symm
    · intro rest' hEq
      exact absurd hEq.symm hReturn.1

theorem lines_replicate {l : Text} (hNewline : '\n' ∉ l) (hReturn : '\r' ∉ l) (n : Nat)
    (rest : Text) :
    lines ((List.replicate n (l ++ ['\n'])).flatten ++ rest) = List.replicate n l ++ lines rest := by
  induction n with
  | zero => rfl
  | succ n ih =>
    rw [List.replicate_succ, List.flatten_cons, List.append_assoc, List.append_assoc]
    exact (lines_append_newline hNewline hReturn _).trans (congrArg (l :: ·) ih)

theorem lines_eq_singleton {l : Text} (hNonempty : l ≠ []) (hNewline : '\n' ∉ l)
    (hReturn : '\r' ∉ l) : lines l = [l] := by
  induction l with
  | nil => exact absurd rfl hNonempty
  | cons c l ih =>
    rw [List.mem_cons, not_or] at hNewline hReturn
    rw [lines]
    · cases l with
      | nil => rfl
      | cons d l => rw [ih (List.cons_ne_nil d l) hNewline.2 hReturn.2]
    · exact fun hEq => hNewline.1 hEq.symm
    · intro rest' hEq
      exact absurd hEq.symm hReturn.1

end NiosBoard.Text
