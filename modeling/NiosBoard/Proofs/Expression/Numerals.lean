import Mathlib.Data.Nat.Digits.Defs
import NiosBoard.Proofs.Expression.Literal

/-! # The numbers that numerals stand for

A numeral is a word of letters and digits that starts with a digit. Its base is told by its first
two characters, and its value by its digits, in letters of either case and with any number of
leading zeros. A numeral is read as its value, if that is in range, and refused as a whole if it is
not, or if one of its characters is no digit. The minus sign is no part of it, so the least value
has no decimal spelling.
-/

namespace NiosBoard

open Text

inductive Radix where
  | decimal
  | hexadecimal
  | binary
  deriving DecidableEq, Repr

namespace Radix

def base : Radix → Nat
  | .decimal => 10
  | .hexadecimal => 16
  | .binary => 2

/-- What stands before the digits, in lower case. -/
def mark : Radix → Text
  | .decimal => []
  | .hexadecimal => ['0', 'x']
  | .binary => ['0', 'b']

def limit : Radix → Nat
  | .decimal => 2 ^ 63
  | _ => 2 ^ 64

def of (t : Text) : Radix :=
  match lowercase t with
  | '0' :: 'x' :: _ => .hexadecimal
  | '0' :: 'b' :: _ => .binary
  | _ => .decimal

/-- The text is a numeral in this base, of digits whose number is `n`. -/
def Spells (ρ : Radix) (t : Text) (n : Nat) : Prop :=
  ∃ ds : List Nat, ds ≠ [] ∧ (∀ d ∈ ds, d < ρ.base) ∧ lowercase t = ρ.mark ++ ds.map digitChar ∧
    n = Nat.ofDigits ρ.base ds.reverse

end Radix

/-- A word that is read as a numeral. -/
def IsNumeral (t : Text) : Prop :=
  ∃ c rest, t = c :: rest ∧ c.isDigit = true ∧ ∀ x ∈ rest, x.isAlphanum = true

/-! ### Digits -/

namespace Text

theorem readDigits?_map_digitChar {base : Nat} (hBase : base ≤ 36) {ds : List Nat}
    (h : ∀ d ∈ ds, d < base) (n : Nat) :
    readDigits? base n (ds.map digitChar) =
      some (n * base ^ ds.length + Nat.ofDigits base ds.reverse) := by
  induction ds generalizing n with
  | nil => simp [readDigits?]
  | cons d ds ih =>
    rw [List.forall_mem_cons] at h
    rw [List.map_cons, readDigits?, digitValue?_digitChar base (by omega) d h.1]
    show readDigits? base (n * base + d) (ds.map digitChar) = _
    rw [ih h.2, List.reverse_cons, Nat.ofDigits_append, Nat.ofDigits_singleton, List.length_reverse,
      List.length_cons, pow_succ]
    congr 1
    ring

theorem exists_map_digitChar {base : Nat} (hBase : 2 ≤ base) (n : Nat) :
    ∃ ds : List Nat, ds ≠ [] ∧ (∀ d ∈ ds, d < base) ∧ digits base n = ds.map digitChar ∧
      n = Nat.ofDigits base ds.reverse := by
  induction n using Nat.strongRecOn with
  | ind n ih =>
    rcases Nat.lt_or_ge n base with hn | hn
    · exact ⟨[n], by simp, by simpa using hn, digits_of_lt hn, by simp⟩
    obtain ⟨ds, -, hLt, hMap, hValue⟩ := ih (n / base) (Nat.div_lt_self (by omega) hBase)
    refine ⟨ds ++ [n % base], by simp, ?_, ?_, ?_⟩
    · intro d hd
      rcases List.mem_append.mp hd with hd | hd
      · exact hLt d hd
      · rw [List.mem_singleton.mp hd]
        exact Nat.mod_lt n (by omega)
    · rw [digits_of_le hBase hn, hMap, List.map_append]
      rfl
    · rw [List.reverse_append, List.reverse_singleton, List.singleton_append, Nat.ofDigits_cons,
        ← hValue, Nat.mod_add_div]

theorem readNat?_map_digitChar {base : Nat} (hBase : base ≤ 36) {ds : List Nat}
    (hNonempty : ds ≠ []) (h : ∀ d ∈ ds, d < base) :
    readNat? base (ds.map digitChar) = some (Nat.ofDigits base ds.reverse) := by
  have hRead := readDigits?_map_digitChar hBase h 0
  rw [Nat.zero_mul, Nat.zero_add] at hRead
  cases ds with
  | nil => exact absurd rfl hNonempty
  | cons d ds => exact hRead

theorem readDigits?_eq_none {base : Nat} {t : Text} {c : Char} (hc : c ∈ t)
    (h : digitValue? base c = none) (n : Nat) : readDigits? base n t = none := by
  induction t generalizing n with
  | nil => cases hc
  | cons x t ih =>
    rw [readDigits?]
    rcases List.mem_cons.mp hc with rfl | hc
    · rw [h]
      rfl
    · cases digitValue? base x with
      | none => rfl
      | some v => exact ih hc _

theorem readNat?_eq_none {base : Nat} {t : Text} {c : Char} (hc : c ∈ t)
    (h : digitValue? base c = none) : readNat? base t = none := by
  cases t with
  | nil => rfl
  | cons x t => exact readDigits?_eq_none hc h 0

theorem toNat_of_isDigit {c : Char} (h : c.isDigit = true) : 48 ≤ c.toNat ∧ c.toNat ≤ 57 := by
  simp only [Char.isDigit, Bool.and_eq_true, decide_eq_true_eq, UInt32.le_iff_toNat_le] at h
  exact h

theorem toNat_of_isLower {c : Char} (h : c.isLower = true) : 97 ≤ c.toNat ∧ c.toNat ≤ 122 := by
  simp only [Char.isLower, Bool.and_eq_true, decide_eq_true_eq, UInt32.le_iff_toNat_le] at h
  exact h

theorem isDigit_of_isDigit_toLower {c : Char} (h : c.toLower.isDigit = true) :
    c.isDigit = true := by
  by_cases hUpper : c.isUpper = true
  · have hLower : c.toLower.isLower = true := by
      rw [Char.isLower_toLower_eq_isAlpha, isAlpha_of_isUpper hUpper]
    have hDigitRange := toNat_of_isDigit h
    have hLowerRange := toNat_of_isLower hLower
    omega
  · rwa [Char.toLower_eq_of_not_isUpper hUpper] at h

theorem eq_digitChar_of_digitValue? {base d : Nat} {c : Char} (hLower : c.isUpper = false)
    (h : digitValue? base c = some d) : d < base ∧ c = digitChar d := by
  unfold digitValue? at h
  simp only [hLower, Option.ite_none_right_eq_some, Option.some.injEq, Char.reduceToNat] at h
  obtain ⟨hLt, hd⟩ := h
  refine ⟨hd ▸ hLt, ?_⟩
  have hChar : ∀ n, c.toNat = n → c = Char.ofNat n := fun n hn => hn ▸ (Char.ofNat_toNat c).symm
  unfold digitChar
  simp only [Char.reduceToNat]
  by_cases hDigit : c.isDigit = true
  · have hRange := toNat_of_isDigit hDigit
    rw [if_pos hDigit] at hd
    rw [if_pos (by omega)]
    exact hChar _ (by omega)
  · rw [if_neg hDigit] at hd hLt
    split at hd
    next hSmall =>
      have hRange := toNat_of_isLower hSmall
      rw [if_neg (by omega)]
      exact hChar _ (by omega)
    next hSmall =>
      rw [if_neg hSmall] at hLt
      exact absurd hLt (Nat.lt_irrefl _)

end Text

/-! ### Reading a numeral -/

namespace IsNumeral

variable {t : Text}

theorem scan_of_literal? {v : Value} (h : IsNumeral t) (hLiteral : Token.literal? t = some v) :
    Token.scan t = .ok [.num v] := by
  obtain ⟨c, rest, rfl, hDigit, hRest⟩ := h
  exact Token.scan_numeral hDigit hRest hLiteral

theorem scan_eq_error (h : IsNumeral t) (hLiteral : Token.literal? t = none) :
    Token.scan t = .error (.invalidLiteral t) := by
  obtain ⟨c, rest, rfl, hDigit, hRest⟩ := h
  have hTake : rest.takeWhile Char.isAlphanum = rest := List.takeWhile_eq_self_iff.mpr hRest
  rw [Token.scan, if_neg (by simp [isBlank_of_isAlphanum (isAlphanum_of_isDigit hDigit)]),
    if_pos hDigit, hTake, hLiteral]

theorem of_lowercase (hHead : ∃ c rest, lowercase t = c :: rest ∧ c.isDigit = true)
    (hWord : ∀ x ∈ lowercase t, x.isAlphanum = true) : IsNumeral t := by
  obtain ⟨d, ds, hLower, hDigit⟩ := hHead
  cases t with
  | nil => cases hLower
  | cons c rest =>
    obtain ⟨hc, -⟩ := List.cons.inj hLower
    refine ⟨c, rest, rfl, isDigit_of_isDigit_toLower (hc ▸ hDigit), fun x hx => ?_⟩
    exact isAlphanum_of_isAlphanum_toLower
      (hWord _ (List.mem_map_of_mem (List.mem_cons_of_mem c hx)))

end IsNumeral

namespace Radix

variable {ρ : Radix} {t body : Text} {n : Nat}

theorem base_le (ρ : Radix) : ρ.base ≤ 16 := by cases ρ <;> decide

theorem of_eq_decimal (hHex : ∀ rest, lowercase t ≠ '0' :: 'x' :: rest)
    (hBin : ∀ rest, lowercase t ≠ '0' :: 'b' :: rest) : of t = .decimal := by
  unfold of
  split
  next rest hLower => exact absurd hLower (hHex rest)
  next rest hLower => exact absurd hLower (hBin rest)
  next => rfl

theorem literal?_eq (h : lowercase t = (of t).mark ++ body) :
    Token.literal? t = Token.literal?.bounded (of t).limit (readNat? (of t).base body) := by
  by_cases hHex : ∃ rest, lowercase t = '0' :: 'x' :: rest
  · obtain ⟨rest, hLower⟩ := hHex
    have hOf : of t = .hexadecimal := by simp only [of, hLower]
    rw [hLower, hOf] at h
    cases h
    rw [Token.literal?, hLower, hOf]
    rfl
  by_cases hBin : ∃ rest, lowercase t = '0' :: 'b' :: rest
  · obtain ⟨rest, hLower⟩ := hBin
    have hOf : of t = .binary := by simp only [of, hLower]
    rw [hLower, hOf] at h
    cases h
    rw [Token.literal?, hLower, hOf]
    rfl
  · have hOf := of_eq_decimal (not_exists.mp hHex) (not_exists.mp hBin)
    have hBody : body = lowercase t := by
      rw [h, hOf]
      rfl
    rw [hOf, hBody]
    unfold Token.literal?
    split
    next rest hLower => exact absurd ⟨rest, hLower⟩ hHex
    next rest hLower => exact absurd ⟨rest, hLower⟩ hBin
    next => rfl

theorem isDigit_digitChar {d : Nat} (h : d < 10) : (digitChar d).isDigit = true :=
  (by decide : ∀ d < 10, (digitChar d).isDigit = true) d h

/-- The base of a numeral is the one it is written in: no decimal digit is a letter. -/
theorem Spells.of_eq (h : ρ.Spells t n) : of t = ρ := by
  obtain ⟨ds, hNonempty, hDigits, hLower, -⟩ := h
  cases ρ with
  | hexadecimal => simp only [of, hLower, mark, List.cons_append]
  | binary => simp only [of, hLower, mark, List.cons_append]
  | decimal =>
    have hDigit : ∀ c ∈ lowercase t, c.isDigit = true := by
      rw [hLower]
      intro c hc
      obtain ⟨d, hd, rfl⟩ := List.mem_map.mp hc
      exact isDigit_digitChar (hDigits d hd)
    apply of_eq_decimal <;> intro rest hRest
    · exact absurd (hDigit 'x' (by simp [hRest])) (by decide)
    · exact absurd (hDigit 'b' (by simp [hRest])) (by decide)

theorem Spells.isNumeral (h : ρ.Spells t n) : IsNumeral t := by
  obtain ⟨ds, hNonempty, hDigits, hLower, -⟩ := h
  refine .of_lowercase ?_ ?_ <;> rw [hLower]
  · cases ρ with
    | hexadecimal => exact ⟨'0', _, rfl, by decide⟩
    | binary => exact ⟨'0', _, rfl, by decide⟩
    | decimal =>
      obtain ⟨d, ds, rfl⟩ := List.exists_cons_of_ne_nil hNonempty
      exact ⟨_, _, rfl, isDigit_digitChar (hDigits d List.mem_cons_self)⟩
  · have hMark : ρ.mark.all Char.isAlphanum = true := by cases ρ <;> rfl
    have hDigit : ∀ d < 16, (digitChar d).isAlphanum = true := by decide
    intro c hc
    rcases List.mem_append.mp hc with hc | hc
    · exact List.all_eq_true.mp hMark c hc
    · obtain ⟨d, hd, rfl⟩ := List.mem_map.mp hc
      exact hDigit d (Nat.lt_of_lt_of_le (hDigits d hd) ρ.base_le)

/-- Numbers in the range of their base are read, all others refused. -/
theorem Spells.literal?_eq (h : ρ.Spells t n) :
    Token.literal? t = if n < ρ.limit then some (BitVec.ofNat 64 n) else none := by
  have hOf := h.of_eq
  obtain ⟨ds, hNonempty, hDigits, hLower, rfl⟩ := h
  have hBody : lowercase t = (of t).mark ++ ds.map digitChar := by rw [hOf, hLower]
  rw [Radix.literal?_eq hBody, hOf,
    readNat?_map_digitChar (Nat.le_trans ρ.base_le (by decide)) hNonempty hDigits]
  rfl

theorem Spells.scan_of_lt (h : ρ.Spells t n) (hFits : n < ρ.limit) :
    Token.scan t = .ok [.num (BitVec.ofNat 64 n)] :=
  h.isNumeral.scan_of_literal? (h.literal?_eq.trans (if_pos hFits))

theorem Spells.scan_of_le (h : ρ.Spells t n) (hLarge : ρ.limit ≤ n) :
    Token.scan t = .error (.invalidLiteral t) :=
  h.isNumeral.scan_eq_error (h.literal?_eq.trans (if_neg (Nat.not_lt.mpr hLarge)))

theorem literal?_eq_none (h : lowercase t = (of t).mark ++ body)
    (hBad : body = [] ∨ ∃ c ∈ body, ∀ d < (of t).base, c ≠ digitChar d) :
    Token.literal? t = none := by
  have hRead : readNat? (of t).base body = none := by
    rcases hBad with rfl | ⟨c, hc, hBad⟩
    · rfl
    refine readNat?_eq_none hc (Option.eq_none_iff_forall_ne_some.mpr fun d hd => ?_)
    have hMem : c ∈ lowercase t := h ▸ List.mem_append_right _ hc
    obtain ⟨x, -, rfl⟩ := List.mem_map.mp hMem
    obtain ⟨hLt, hChar⟩ := eq_digitChar_of_digitValue? x.isUpper_toLower_eq_false hd
    exact hBad d hLt hChar
  rw [literal?_eq h, hRead]
  rfl

theorem spells_digits (ρ : Radix) (k n : Nat) :
    ρ.Spells (ρ.mark ++ (List.replicate k '0' ++ digits ρ.base n)) n := by
  have hBase : 2 ≤ ρ.base := by cases ρ <;> decide
  obtain ⟨ds, hNonempty, hLt, hMap, hValue⟩ := exists_map_digitChar hBase n
  have hZeros : List.replicate k '0' = (List.replicate k 0).map digitChar := by
    rw [List.map_replicate]
    rfl
  have hAll : ∀ d ∈ List.replicate k 0 ++ ds, d < ρ.base := by
    intro d hd
    rcases List.mem_append.mp hd with hd | hd
    · rw [List.eq_of_mem_replicate hd]
      cases ρ <;> decide
    · exact hLt d hd
  refine ⟨List.replicate k 0 ++ ds, List.append_ne_nil_of_right_ne_nil _ hNonempty, hAll, ?_, ?_⟩
  · have hMark : lowercase ρ.mark = ρ.mark := by cases ρ <;> rfl
    have hDigit : ∀ d < 16, (digitChar d).toLower = digitChar d := by decide
    rw [hMap, hZeros, ← List.map_append, lowercase, List.map_append]
    refine congrArg₂ (· ++ ·) hMark (lowercase_eq_self fun c hc => ?_)
    obtain ⟨d, hd, rfl⟩ := List.mem_map.mp hc
    exact hDigit d (Nat.lt_of_lt_of_le (hAll d hd) ρ.base_le)
  · rw [List.reverse_append, List.reverse_replicate, Nat.ofDigits_append_replicate_zero, hValue]

end Radix

namespace Expression

/-- How expressions that are numerals are read. -/
structure ReadsNumerals (symbols : Symbols) : Prop where
  /-- A number is read back from its decimal spelling. -/
  decimal : ∀ n : Int, -2 ^ 63 < n → n < 2 ^ 63 →
    ∃ v, evaluate symbols (intDecimal n) = .ok v ∧ v.toInt = n
  /-- The sign is applied to what is too large without it. -/
  least : evaluate symbols (intDecimal (-2 ^ 63)) = .error (.invalidLiteral (natDecimal (2 ^ 63)))
  /-- Numbers from `2 ^ 63` on are read as negative. -/
  fits : ∀ (ρ : Radix) (t : Text) (n : Nat), ρ.Spells t n → n < ρ.limit →
    ∃ v, evaluate symbols t = .ok v ∧ v.toInt = (n : Int).bmod (2 ^ 64)
  tooLarge : ∀ (ρ : Radix) (t : Text) (n : Nat), ρ.Spells t n → ρ.limit ≤ n →
    evaluate symbols t = .error (.invalidLiteral t)
  /-- Without digits, or with a character that is none of the base, it is refused. -/
  notDigits : ∀ t body : Text, IsNumeral t → lowercase t = (Radix.of t).mark ++ body →
    (body = [] ∨ ∃ c ∈ body, ∀ d < (Radix.of t).base, c ≠ digitChar d) →
    evaluate symbols t = .error (.invalidLiteral t)

theorem evaluate_of_scan_error {symbols : Symbols} {t : Text} {e : ExpressionError}
    (h : Token.scan t = .error e) : evaluate symbols t = .error e := by
  rw [evaluate, h]
  rfl

/-- A numeral in decimal, hexadecimal or binary is read as the number that its digits spell, or
refused as a whole; but the least value cannot be written in decimal. -/
theorem readsNumerals (symbols : Symbols) : ReadsNumerals symbols where
  decimal n hLow hHigh := by
    refine ⟨_, evaluate_intDecimal (by omega), BitVec.toInt_ofInt_eq_self (by decide) ?_ hHigh⟩
    exact Int.le_of_lt hLow
  least := by
    have hLarge := (Radix.decimal.spells_digits 0 (2 ^ 63)).scan_of_le (Nat.le_refl _)
    refine evaluate_of_scan_error (t := '-' :: natDecimal (2 ^ 63)) ?_
    rw [Token.scan_minus, natDecimal]
    exact congrArg _ hLarge
  fits ρ t n h hFits :=
    ⟨_, evaluate_of_derives (h.scan_of_lt hFits) (derives_num _) trivial, BitVec.toInt_ofNat ..⟩
  tooLarge ρ t n h hLarge := evaluate_of_scan_error (h.scan_of_le hLarge)
  notDigits t body h hBody hBad :=
    evaluate_of_scan_error (h.scan_eq_error (Radix.literal?_eq_none hBody hBad))

theorem readsNumerals_allOnes :
    evaluate noSymbols "0X00ffffFFFFffffFFFF".toList = .ok (-1) := by
  have hSpells : Radix.hexadecimal.Spells "0X00ffffFFFFffffFFFF".toList (2 ^ 64 - 1) :=
    ⟨[0, 0] ++ List.replicate 16 15, by simp, by decide, by decide, by decide⟩
  obtain ⟨v, hValue, hInt⟩ := (readsNumerals noSymbols).fits _ _ _ hSpells (by decide)
  rw [hValue, ← BitVec.ofInt_toInt (x := v), hInt]
  rfl

/-- The least value in decimal: what follows the sign is too large. -/
theorem least_decimal_refused :
    intDecimal (-2 ^ 63) = "-9223372036854775808".toList ∧
      evaluate noSymbols "-9223372036854775808".toList =
        .error (.invalidLiteral "9223372036854775808".toList) := by
  decide +kernel

end Expression

end NiosBoard
