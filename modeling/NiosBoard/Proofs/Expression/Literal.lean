import NiosBoard.Proofs.Expression.Evaluation
import NiosBoard.Proofs.Text.Numeral
import NiosBoard.Proofs.Text.Plain

/-! # Numerals as expressions

A number that was written in decimal or hexadecimal is the value of what was written, with or
without a sign before it.
-/

namespace NiosBoard

open Text

namespace Token

theorem literal?_digits {n : Nat} (h : n < 2 ^ 63) :
    literal? (digits 10 n) = some (BitVec.ofNat 64 n) := by
  have hLower : lowercase (digits 10 n) = digits 10 n :=
    lowercase_eq_self (forall_mem_digits (by decide) (by decide))
  have hDigit : ∀ c ∈ digits 10 n, c.isDigit = true := forall_mem_digits (by decide) (by decide)
  unfold literal?
  rw [hLower]
  split
  · next rest hEq => exact absurd (hDigit 'x' (by simp [hEq])) (by decide)
  · next rest hEq => exact absurd (hDigit 'b' (by simp [hEq])) (by decide)
  · rw [readNat?_digits (by decide) (by decide)]
    exact if_pos h

theorem scan_numeral {c : Char} {rest : Text} {v : Value} (hDigit : c.isDigit = true)
    (hRest : ∀ x ∈ rest, x.isAlphanum = true) (hLiteral : literal? (c :: rest) = some v) :
    scan (c :: rest) = .ok [.num v] := by
  have hTake : rest.takeWhile Char.isAlphanum = rest := List.takeWhile_eq_self_iff.mpr hRest
  have hDrop : rest.dropWhile Char.isAlphanum = [] := List.dropWhile_eq_nil_iff.mpr hRest
  rw [scan, if_neg (by simp [isBlank_of_isAlphanum (isAlphanum_of_isDigit hDigit)]), if_pos hDigit,
    hTake, hLiteral, hDrop, scan]
  rfl

theorem scan_minus (t : Text) : scan ('-' :: t) = (.op .sub :: ·) <$> scan t := by
  rw [scan, if_neg (by decide), if_neg (by decide), if_neg (by decide), if_neg (by decide),
    if_neg (by decide), if_neg (by decide)]
  rfl

theorem scan_digits {n : Nat} (h : n < 2 ^ 63) :
    scan (digits 10 n) = .ok [.num (BitVec.ofNat 64 n)] := by
  have hDigit : ∀ c ∈ digits 10 n, c.isDigit = true := forall_mem_digits (by decide) (by decide)
  have hLiteral := literal?_digits h
  cases hDigits : digits 10 n with
  | nil => exact absurd hDigits (digits_ne_nil 10 n)
  | cons c rest =>
    rw [hDigits] at hDigit hLiteral
    exact scan_numeral (hDigit c List.mem_cons_self)
      (fun x hx => isAlphanum_of_isDigit (hDigit x (List.mem_cons_of_mem c hx))) hLiteral

end Token

namespace Expression

variable {symbols : Symbols}

theorem evaluate_of_derives {t : Text} {ts : List Token} {e : Tree} (hScan : Token.scan t = .ok ts)
    (h : Derives symbols 1 e ts) (hDivisors : e.NonzeroDivisors symbols) :
    evaluate symbols t = .ok (e.value symbols) := by
  rw [evaluate, hScan]
  exact ofTokens_eq_ok_iff.mpr ⟨e, h, hDivisors, rfl⟩

theorem derives_num (v : Value) : Derives symbols 1 (.num v) [.num v] :=
  Derives.loosen (.num v) (by decide) (Nat.le_refl 6)

theorem evaluate_natDecimal {n : Nat} (h : n < 2 ^ 63) :
    evaluate symbols (natDecimal n) = .ok (BitVec.ofNat 64 n) :=
  evaluate_of_derives (Token.scan_digits h) (derives_num _) trivial

theorem evaluate_intDecimal {n : Int} (h : n.natAbs < 2 ^ 63) :
    evaluate symbols (intDecimal n) = .ok (BitVec.ofInt 64 n) := by
  unfold intDecimal
  split
  · next hNegative =>
    have hScan : Token.scan ('-' :: digits 10 n.natAbs) =
        .ok [.op .sub, .num (BitVec.ofNat 64 n.natAbs)] := by
      rw [Token.scan_minus, Token.scan_digits h]
      rfl
    have hDerives : Derives symbols 1 (.signed .minus (.num (BitVec.ofNat 64 n.natAbs)))
        [.op .sub, .num (BitVec.ofNat 64 n.natAbs)] :=
      Derives.loosen (.signed .minus (.num _)) (by decide) (Nat.le_refl 6)
    rw [evaluate_of_derives hScan hDerives trivial]
    show Except.ok (BitVec.ofInt 64 (-(BitVec.ofNat 64 n.natAbs).toInt)) = _
    rw [BitVec.ofInt_neg, BitVec.ofInt_toInt, ← BitVec.ofInt_natCast, ← BitVec.ofInt_neg,
      Int.ofNat_natAbs_of_nonpos (Int.le_of_lt hNegative), Int.neg_neg]
  · next hNonnegative =>
    have hCast : (n.natAbs : Int) = n := Int.natAbs_of_nonneg (Int.not_lt.mp hNonnegative)
    rw [← natDecimal, evaluate_natDecimal h, ← BitVec.ofInt_natCast, hCast]

end Expression

end NiosBoard
