import NiosBoard.Text.Numeral

/-! # Numerals read back

The digits of a number, in any base up to 36, are read as the number they were written from. So no
two numbers are written alike.
-/

namespace NiosBoard.Text

theorem digitValue?_digitChar :
    ∀ base < 37, ∀ k < base, digitValue? base (digitChar k) = some k := by
  decide

theorem digits_of_lt {base n : Nat} (h : n < base) : digits base n = [digitChar n] := by
  rw [digits, dif_pos (.inl h)]

theorem digits_of_le {base n : Nat} (hBase : 2 ≤ base) (h : base ≤ n) :
    digits base n = digits base (n / base) ++ [digitChar (n % base)] := by
  rw [digits, dif_neg (by omega)]

theorem digits_ne_nil (base n : Nat) : digits base n ≠ [] := by
  rw [digits]
  split <;> simp

theorem exists_digit_of_mem {base n : Nat} {c : Char} (hBase : 2 ≤ base) (h : c ∈ digits base n) :
    ∃ k < base, c = digitChar k := by
  induction n using Nat.strongRecOn with
  | ind n ih =>
    rcases Nat.lt_or_ge n base with hn | hn
    · rw [digits_of_lt hn] at h
      exact ⟨n, hn, List.mem_singleton.mp h⟩
    · rw [digits_of_le hBase hn] at h
      rcases List.mem_append.mp h with hMem | hMem
      · exact ih (n / base) (Nat.div_lt_self (by omega) hBase) hMem
      · exact ⟨n % base, Nat.mod_lt n (by omega), List.mem_singleton.mp hMem⟩

/-- A property of the digits of the base is one of every character of a numeral. -/
theorem forall_mem_digits {base n : Nat} {p : Char → Prop} (hBase : 2 ≤ base)
    (h : ∀ k < base, p (digitChar k)) : ∀ c ∈ digits base n, p c := by
  intro c hMem
  obtain ⟨k, hk, rfl⟩ := exists_digit_of_mem hBase hMem
  exact h k hk

theorem readDigits?_append (base acc : Nat) (t u : Text) :
    readDigits? base acc (t ++ u) =
      (readDigits? base acc t).bind fun n => readDigits? base n u := by
  induction t generalizing acc with
  | nil => rfl
  | cons c t ih =>
    rw [List.cons_append, readDigits?, readDigits?]
    cases digitValue? base c with
    | none => rfl
    | some v => exact ih _

theorem readDigits?_digits {base : Nat} (hBase : 2 ≤ base) (hBase' : base ≤ 36) (n : Nat) :
    readDigits? base 0 (digits base n) = some n := by
  induction n using Nat.strongRecOn with
  | ind n ih =>
    rcases Nat.lt_or_ge n base with hn | hn
    · rw [digits_of_lt hn, readDigits?, digitValue?_digitChar base (by omega) n hn]
      simp [readDigits?]
    · have hDigit := digitValue?_digitChar base (by omega) (n % base) (Nat.mod_lt n (by omega))
      rw [digits_of_le hBase hn, readDigits?_append,
        ih (n / base) (Nat.div_lt_self (by omega) hBase)]
      simp [readDigits?, hDigit, Nat.div_add_mod']

theorem readNat?_digits {base : Nat} (hBase : 2 ≤ base) (hBase' : base ≤ 36) (n : Nat) :
    readNat? base (digits base n) = some n := by
  cases hDigits : digits base n with
  | nil => exact absurd hDigits (digits_ne_nil base n)
  | cons c t =>
    rw [readNat?, ← hDigits]
    · exact readDigits?_digits hBase hBase' n
    · simp

theorem digits_injective {base : Nat} (hBase : 2 ≤ base) (hBase' : base ≤ 36) :
    Function.Injective (digits base) := by
  intro n k h
  have hRead := readNat?_digits hBase hBase' n
  rw [h, readNat?_digits hBase hBase' k] at hRead
  exact (Option.some.inj hRead).symm

theorem intDecimal_injective : Function.Injective intDecimal := by
  intro n k h
  have hSign : ∀ i j : Nat, '-' :: digits 10 i ≠ digits 10 j := by
    intro i j hEq
    have hDigit : ∀ d < 10, '-' ≠ digitChar d := by decide
    obtain ⟨d, hd, hChar⟩ := exists_digit_of_mem (n := j) (by decide) (hEq ▸ List.mem_cons_self)
    exact hDigit d hd hChar
  unfold intDecimal at h
  split at h <;> split at h
  · have hAbs := digits_injective (by decide) (by decide) (List.cons.inj h).2
    omega
  · exact absurd h (hSign _ _)
  · exact absurd h.symm (hSign _ _)
  · have hAbs := digits_injective (by decide) (by decide) h
    omega

end NiosBoard.Text
