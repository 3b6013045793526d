import Mathlib
import NiosBoard.Proofs.Expression.Grammar
import NiosBoard.Proofs.Except

/-! # The value of an operand expression

Values are integers wrapped to 64 bits. Each function of the evaluator succeeds exactly on what one
rule of precedence climbing reads, with the value of the tree, so that evaluation succeeds exactly
on the texts in the grammar.
-/

namespace NiosBoard

/-- The relocation on integers: `hiadj` adds bit 15 to the upper half. -/
def Relocation.meaning : Relocation → Value → Value
  | .lo, x => .ofInt 64 (x.toInt % 2 ^ 16)
  | .hi, x => .ofInt 64 (x.toInt / 2 ^ 16 % 2 ^ 16)
  | .hiadj, x => .ofInt 64 ((x.toInt / 2 ^ 16 + x.toInt / 2 ^ 15 % 2) % 2 ^ 16)

/-- The operation on integers, wrapped. -/
def BinaryOp.meaning : BinaryOp → Value → Value → Value
  | .shl, a, b => .ofInt 64 (a.toInt * 2 ^ (b.toNat % 64))
  | .shr, a, b => .ofInt 64 (a.toInt / 2 ^ (b.toNat % 64))
  | .ushr, a, b => .ofNat 64 (a.toNat / 2 ^ (b.toNat % 64))
  | .and, a, b => a &&& b
  | .or, a, b => a ||| b
  | .xor, a, b => a ^^^ b
  | .mul, a, b => .ofInt 64 (a.toInt * b.toInt)
  | .div, a, b => .ofInt 64 (a.toInt.tdiv b.toInt)
  | .rem, a, b => .ofInt 64 (a.toInt.tmod b.toInt)
  | .add, a, b => .ofInt 64 (a.toInt + b.toInt)
  | .sub, a, b => .ofInt 64 (a.toInt - b.toInt)

def BinaryOp.divides : BinaryOp → Bool
  | .div | .rem => true
  | _ => false

/-! ### Wrapping -/

theorem ofInt_and_mask (y : Int) {k : Nat} (hk : k < 64) :
    BitVec.ofInt 64 y &&& BitVec.ofNat 64 (2 ^ k - 1) = .ofInt 64 (y % 2 ^ k) := by
  have hMask : 2 ^ k - 1 < 2 ^ 64 :=
    Nat.lt_of_le_of_lt (Nat.sub_le ..) (Nat.pow_lt_pow_right (by decide) hk)
  have hMod : y % 2 ^ k = (((BitVec.ofInt 64 y).toNat % 2 ^ k : Nat) : Int) := by
    rw [Int.natCast_mod, BitVec.toNat_ofInt, Int.toNat_of_nonneg (Int.emod_nonneg y (by decide)),
      Nat.cast_pow, Nat.cast_pow, Nat.cast_ofNat,
      Int.emod_emod_of_dvd y (pow_dvd_pow 2 (Nat.le_of_lt hk))]
  apply BitVec.eq_of_toNat_eq
  rw [hMod, BitVec.ofInt_natCast, BitVec.toNat_and, BitVec.toNat_ofNat, BitVec.toNat_ofNat,
    Nat.mod_eq_of_lt hMask, Nat.and_two_pow_sub_one_eq_mod,
    Nat.mod_eq_of_lt (Nat.lt_of_le_of_lt (Nat.mod_le ..) (BitVec.isLt _))]

theorem twoPow_eq_ofInt (n : Nat) : BitVec.twoPow 64 n = .ofInt 64 (2 ^ n) := by
  apply BitVec.eq_of_toNat_eq
  rw [BitVec.toNat_twoPow, ← BitVec.toNat_ofNat, ← BitVec.ofInt_natCast]
  rfl

theorem shiftLeft_eq_ofInt (a : Value) (n : Nat) : a <<< n = .ofInt 64 (a.toInt * 2 ^ n) := by
  rw [BitVec.shiftLeft_eq_mul_twoPow, BitVec.ofInt_mul, BitVec.ofInt_toInt, twoPow_eq_ofInt]

theorem sshiftRight_eq_ofInt (a : Value) (n : Nat) :
    a.sshiftRight n = .ofInt 64 (a.toInt / 2 ^ n) := by
  rw [← @BitVec.ofInt_toInt 64 (a.sshiftRight n), BitVec.toInt_sshiftRight,
    Int.shiftRight_eq_div_pow, Nat.cast_pow, Nat.cast_ofNat]

theorem ushiftRight_eq_ofNat (a : Value) (n : Nat) : a >>> n = .ofNat 64 (a.toNat / 2 ^ n) := by
  rw [← Nat.shiftRight_eq_div_pow, ← BitVec.toNat_ushiftRight, BitVec.ofNat_toNat,
    BitVec.setWidth_eq]

theorem sdiv_eq_ofInt (a b : Value) : a.sdiv b = .ofInt 64 (a.toInt.tdiv b.toInt) := by
  apply BitVec.eq_of_toInt_eq
  rw [BitVec.toInt_sdiv, BitVec.toInt_ofInt]

theorem srem_eq_ofInt (a b : Value) : a.srem b = .ofInt 64 (a.toInt.tmod b.toInt) := by
  rw [← BitVec.toInt_srem, BitVec.ofInt_toInt]

theorem Relocation.apply_eq_meaning (r : Relocation) (x : Value) : r.apply x = r.meaning x := by
  cases r with
  | lo =>
    rw [meaning, ← ofInt_and_mask _ (by decide), BitVec.ofInt_toInt]
    rfl
  | hi =>
    rw [meaning, ← ofInt_and_mask _ (by decide), ← sshiftRight_eq_ofInt]
    rfl
  | hiadj =>
    have hBit : x.sshiftRight 15 &&& 1 = .ofInt 64 (x.toInt / 2 ^ 15 % 2) := by
      rw [sshiftRight_eq_ofInt]
      exact ofInt_and_mask _ (k := 1) (by decide)
    rw [meaning, ← ofInt_and_mask _ (by decide), BitVec.ofInt_add, ← sshiftRight_eq_ofInt, ← hBit]
    rfl

theorem BinaryOp.apply_eq_ok_iff {o : BinaryOp} {a b v : Value} :
    o.apply a b = .ok v ↔ (o.divides = true → b ≠ 0) ∧ o.meaning a b = v := by
  have division : ∀ x : Value,
      (if b = 0 then .error .divisionByZero else .ok x : Except ExpressionError Value) = .ok v ↔
        b ≠ 0 ∧ x = v := by
    intro x
    split
    · next hZero => simp [hZero]
    · next hZero => simp only [Except.ok.injEq, ne_eq, hZero, not_false_eq_true, true_and]
  cases o with
  | shl => simp [apply, divides, meaning, shiftLeft_eq_ofInt]
  | shr => simp [apply, divides, meaning, sshiftRight_eq_ofInt]
  | ushr => simp [apply, divides, meaning, ushiftRight_eq_ofNat]
  | and | or | xor => simp [apply, divides, meaning]
  | mul | add => simp [apply, divides, meaning, BitVec.ofInt_mul, BitVec.ofInt_add]
  | sub => simp [apply, divides, meaning, sub_eq_add_neg, BitVec.ofInt_add, BitVec.ofInt_neg]
  | div =>
    rw [apply, division, sdiv_eq_ofInt]
    simp [divides, meaning]
  | rem =>
    rw [apply, division, srem_eq_ofInt]
    simp [divides, meaning]

namespace Expression

def Sign.meaning : Sign → Value → Value
  | .minus, x => .ofInt 64 (-x.toInt)
  | .plus, x => x
  | .complement, x => .ofInt 64 (-x.toInt - 1)

theorem Sign.sign?_token (s : Sign) : s.token.sign? = some s.meaning := by
  cases s with
  | minus =>
    refine congrArg some (funext fun x => ?_)
    rw [meaning, BitVec.ofInt_neg, BitVec.ofInt_toInt]
  | plus => rfl
  | complement =>
    refine congrArg some (funext fun x => ?_)
    rw [meaning, Int.sub_eq_add_neg, BitVec.ofInt_add, BitVec.ofInt_neg, BitVec.ofInt_toInt,
      BitVec.not_eq_neg_add, BitVec.sub_eq_add_neg]
    rfl

theorem Sign.exists_of_sign? {t : Token} {f : Value → Value} (h : t.sign? = some f) :
    ∃ s : Sign, t = s.token ∧ f = s.meaning := by
  have hToken : ∃ s : Sign, t = s.token := by
    unfold Token.sign? at h
    split at h
    · exact ⟨.minus, rfl⟩
    · exact ⟨.plus, rfl⟩
    · exact ⟨.complement, rfl⟩
    · cases h
  obtain ⟨s, rfl⟩ := hToken
  rw [s.sign?_token] at h
  exact ⟨s, rfl, (Option.some.inj h).symm⟩

/-- The value of a tree, names taken from the table. -/
def Tree.value (symbols : Symbols) : Tree → Value
  | .num v => v
  | .name n => ((symbols n).getD 0).setWidth 64
  | .group e => e.value symbols
  | .relocated r e => r.meaning (e.value symbols)
  | .signed s e => s.meaning (e.value symbols)
  | .binary o l r => o.meaning (l.value symbols) (r.value symbols)

/-- No division or remainder of the tree has a divisor of 0. -/
def Tree.NonzeroDivisors (symbols : Symbols) : Tree → Prop
  | .num _ => True
  | .name _ => True
  | .group e => e.NonzeroDivisors symbols
  | .relocated _ e => e.NonzeroDivisors symbols
  | .signed _ e => e.NonzeroDivisors symbols
  | .binary o l r =>
    l.NonzeroDivisors symbols ∧ r.NonzeroDivisors symbols ∧ (o.divides = true → r.value symbols ≠ 0)

def Tree.Means (symbols : Symbols) (e : Tree) (v : Value) : Prop :=
  e.NonzeroDivisors symbols ∧ e.value symbols = v

variable {symbols : Symbols}

/-- The computation succeeds with this value and leaves these tokens. -/
def Leaves {P : List Token → Prop} (x : Except ExpressionError (Value × {ts : List Token // P ts}))
    (v : Value) (rest : List Token) : Prop :=
  ∃ h, x = .ok (v, ⟨rest, h⟩)

theorem binary_leaves_iff {k : Nat} {ts rest : List Token} {v : Value} :
    Leaves (binary symbols k ts) v rest ↔
      ∃ u mid, Leaves (unary symbols ts) u mid ∧ Leaves (operators symbols k u mid) v rest := by
  rw [binary]
  constructor
  · rintro ⟨h, hEq⟩
    split at hEq
    · cases hEq
    next u mid hMid hUnary =>
    split at hEq
    · cases hEq
    next w rest' hRest hOperators =>
    cases hEq
    exact ⟨u, mid, ⟨hMid, hUnary⟩, ⟨hRest, hOperators⟩⟩
  · rintro ⟨u, mid, ⟨hMid, hUnary⟩, ⟨hRest, hOperators⟩⟩
    rw [hUnary]
    simp only [hOperators]
    exact ⟨_, rfl⟩

theorem operators_leaves_iff {k : Nat} {u v : Value} {ts rest : List Token} :
    Leaves (operators symbols k u ts) v rest ↔
      (Stops k ts ∧ v = u ∧ rest = ts) ∨
        ∃ o after w mid x, ts = .op o :: after ∧ k ≤ o.tier ∧
          Leaves (binary symbols (o.tier + 1) after) w mid ∧ o.apply u w = .ok x ∧
          Leaves (operators symbols k x mid) v rest := by
  rw [operators.eq_def]
  split
  · next o after =>
    split
    · next hTier =>
      constructor
      · rintro ⟨h, hEq⟩
        cases hEq
        refine .inl ⟨?_, rfl, rfl⟩
        rintro o' after' hEq
        cases hEq
        exact hTier
      · rintro (⟨-, rfl, rfl⟩ | ⟨o', after', w, mid, x, hEq, hk, -⟩)
        · exact ⟨_, rfl⟩
        · cases hEq
          omega
    · next hTier =>
      constructor
      · rintro ⟨h, hEq⟩
        split at hEq
        · cases hEq
        next w mid hMid hBinary =>
        split at hEq
        · cases hEq
        next x hApply =>
        split at hEq
        · cases hEq
        next hRest hOperators =>
        cases hEq
        exact .inr ⟨o, after, w, mid, x, rfl, Nat.le_of_not_lt hTier, ⟨hMid, hBinary⟩, hApply,
          ⟨hRest, hOperators⟩⟩
      · rintro (⟨hStops, -, -⟩ | ⟨o', after', w, mid, x, hEq, hk, ⟨hMid, hBinary⟩, hApply,
          ⟨hRest, hOperators⟩⟩)
        · exact absurd (hStops o after rfl) hTier
        · cases hEq
          rw [hBinary]
          simp only [hApply, hOperators]
          exact ⟨_, rfl⟩
  · next hOp =>
    constructor
    · rintro ⟨h, hEq⟩
      cases hEq
      exact .inl ⟨fun o after hEq => absurd hEq (hOp o after), rfl, rfl⟩
    · rintro (⟨-, rfl, rfl⟩ | ⟨o', after', w, mid, x, hEq, hk, -⟩)
      · exact ⟨_, rfl⟩
      · exact absurd hEq (hOp o' after')

theorem group_leaves_iff {ts rest : List Token} {v : Value} :
    Leaves (group symbols ts) v rest ↔ Leaves (binary symbols 0 ts) v (.close :: rest) := by
  rw [group]
  constructor
  · rintro ⟨h, hEq⟩
    split at hEq
    · cases hEq
    next u mid hMid hBinary =>
    unfold expect at hEq
    split at hEq
    · cases hEq
    next rest' hRest hExpect =>
    cases hEq
    split at hExpect
    · cases hExpect
    · split at hExpect
      · next hClose =>
        cases hExpect
        subst hClose
        exact ⟨_, hBinary⟩
      · cases hExpect
  · rintro ⟨h, hEq⟩
    rw [hEq]
    simp [expect]
    exact ⟨_, rfl⟩

theorem relocated_leaves_iff {ts rest : List Token} {v : Value} :
    Leaves (relocated symbols ts) v rest ↔
      ∃ n r after u, ts = .ident n :: .open :: after ∧ Relocation.ofName? n = some r ∧
        Leaves (group symbols after) u rest ∧ v = r.apply u := by
  rw [relocated.eq_def]
  constructor
  · rintro ⟨h, hEq⟩
    split at hEq
    · cases hEq
    · next n after =>
      split at hEq
      · cases hEq
      next r hName =>
      unfold expect at hEq
      split at hEq
      · cases hEq
      next mid hMid hExpect =>
      split at hEq
      · cases hEq
      next u rest' hRest hGroup =>
      cases hEq
      split at hExpect
      · cases hExpect
      next t after' =>
      split at hExpect
      · next hOpen =>
        cases hExpect
        subst hOpen
        exact ⟨n, r, _, u, rfl, hName, ⟨hRest, hGroup⟩, rfl⟩
      · cases hExpect
    · cases hEq
  · rintro ⟨n, r, after, u, rfl, hName, ⟨h, hGroup⟩, rfl⟩
    simp only [hName, expect, if_true, hGroup]
    exact ⟨_, rfl⟩

theorem unary_leaves_iff {ts rest : List Token} {v : Value} :
    Leaves (unary symbols ts) v rest ↔
      ts = .num v :: rest ∨
      (∃ n a, ts = .ident n :: rest ∧ symbols n = some a ∧ v = a.setWidth 64) ∨
      (∃ after, ts = .open :: after ∧ Leaves (group symbols after) v rest) ∨
      (∃ after, ts = .op .rem :: after ∧ Leaves (relocated symbols after) v rest) ∨
      ∃ s : Sign, ∃ after u, ts = s.token :: after ∧ Leaves (unary symbols after) u rest ∧
        v = s.meaning u := by
  rw [unary.eq_def]
  cases ts with
  | nil =>
    constructor
    · rintro ⟨h, hEq⟩
      cases hEq
    · simp
  | cons t after =>
    dsimp only
    constructor
    · rintro ⟨h, hEq⟩
      split at hEq
      · next f hSign =>
        obtain ⟨s, rfl, rfl⟩ := Sign.exists_of_sign? hSign
        split at hEq
        · cases hEq
        next u rest' hRest hUnary =>
        cases hEq
        exact .inr (.inr (.inr (.inr ⟨s, after, u, rfl, ⟨hRest, hUnary⟩, rfl⟩)))
      · split at hEq
        · split at hEq
          · cases hEq
          next w rest' hRest hRelocated =>
          cases hEq
          exact .inr (.inr (.inr (.inl ⟨after, rfl, hRest, hRelocated⟩)))
        · split at hEq
          · cases hEq
          next w rest' hRest hGroup =>
          cases hEq
          exact .inr (.inr (.inl ⟨after, rfl, hRest, hGroup⟩))
        · cases hEq
          exact .inl rfl
        · next n _ =>
          split at hEq
          · next a ha =>
            cases hEq
            exact .inr (.inl ⟨n, a, rfl, ha, rfl⟩)
          · cases hEq
        · cases hEq
    · rintro (hEq | ⟨n, a, hEq, ha, rfl⟩ | ⟨after', hEq, h, hGroup⟩ | ⟨after', hEq, h, hRelocated⟩ |
        ⟨s, after', u, hEq, ⟨h, hUnary⟩, rfl⟩)
      · cases hEq
        exact ⟨_, rfl⟩
      · cases hEq
        simp only [Token.sign?, ha]
        exact ⟨_, rfl⟩
      · cases hEq
        simp only [Token.sign?, hGroup]
        exact ⟨_, rfl⟩
      · cases hEq
        simp only [Token.sign?, hRelocated]
        exact ⟨_, rfl⟩
      · cases hEq
        simp only [s.sign?_token, hUnary]
        exact ⟨_, rfl⟩

/-! ### Climbing and evaluating -/

theorem Tree.means_binary_iff {o : BinaryOp} {l r : Tree} {v : Value} :
    (Tree.binary o l r).Means symbols v ↔
      ∃ a b, l.Means symbols a ∧ r.Means symbols b ∧ o.apply a b = .ok v := by
  constructor
  · rintro ⟨⟨hl, hr, hDivides⟩, hValue⟩
    exact ⟨_, _, ⟨hl, rfl⟩, ⟨hr, rfl⟩, BinaryOp.apply_eq_ok_iff.mpr ⟨hDivides, hValue⟩⟩
  · rintro ⟨a, b, ⟨hl, rfl⟩, ⟨hr, rfl⟩, hApply⟩
    obtain ⟨hDivides, hValue⟩ := BinaryOp.apply_eq_ok_iff.mp hApply
    exact ⟨⟨hl, hr, hDivides⟩, hValue⟩

/-- What evaluation gives for each goal. -/
def Evaluates (symbols : Symbols) (ts : List Token) (v : Value) (rest : List Token) : Goal → Prop
  | .operand => Leaves (unary symbols ts) v rest
  | .whole k => Leaves (binary symbols k ts) v rest
  | .chain k lhs => ∃ u, lhs.Means symbols u ∧ Leaves (operators symbols k u ts) v rest

theorem Climbs.evaluates {g : Goal} {ts rest : List Token} {e : Tree} {v : Value}
    (h : Climbs symbols g ts e rest) (hMeans : e.Means symbols v) :
    Evaluates symbols ts v rest g := by
  induction h generalizing v with
  | num u rest =>
    obtain ⟨-, rfl⟩ := hMeans
    exact unary_leaves_iff.mpr (.inl rfl)
  | @name n hn rest =>
    obtain ⟨-, rfl⟩ := hMeans
    obtain ⟨a, ha⟩ := Option.isSome_iff_exists.mp hn
    exact unary_leaves_iff.mpr (.inr (.inl ⟨n, a, rfl, ha, by rw [Tree.value, ha]; rfl⟩))
  | @group e ts rest _ ih =>
    have hGroup := group_leaves_iff.mpr (ih hMeans)
    exact unary_leaves_iff.mpr (.inr (.inr (.inl ⟨ts, rfl, hGroup⟩)))
  | @relocated r n e ts rest hn _ ih =>
    obtain ⟨hDivisors, rfl⟩ := hMeans
    have hGroup := group_leaves_iff.mpr (ih ⟨hDivisors, rfl⟩)
    have hRelocated := relocated_leaves_iff.mpr ⟨n, r, ts, _, rfl,
      Relocation.ofName?_eq_some_iff.mpr hn, hGroup, (r.apply_eq_meaning _).symm⟩
    exact unary_leaves_iff.mpr (.inr (.inr (.inr (.inl ⟨_, rfl, hRelocated⟩))))
  | @signed s t e ts rest ht _ ih =>
    obtain ⟨hDivisors, rfl⟩ := hMeans
    have hUnary := ih ⟨hDivisors, rfl⟩
    exact unary_leaves_iff.mpr
      (.inr (.inr (.inr (.inr ⟨s, ts, _, by rw [ht], hUnary, rfl⟩))))
  | whole _ _ ih₀ ih =>
    obtain ⟨u, hLhs, hOperators⟩ := ih hMeans
    exact binary_leaves_iff.mpr ⟨u, _, ih₀ hLhs, hOperators⟩
  | stop hStops e => exact ⟨v, hMeans, operators_leaves_iff.mpr (.inl ⟨hStops, rfl, rfl⟩)⟩
  | @more k o l r e ts mid rest ho _ _ ihr ih =>
    obtain ⟨x, hBinary, hOperators⟩ := ih hMeans
    obtain ⟨a, b, hl, hr, hApply⟩ := Tree.means_binary_iff.mp hBinary
    exact ⟨a, hl, operators_leaves_iff.mpr
      (.inr ⟨o, ts, b, mid, x, rfl, ho, ihr hr, hApply, hOperators⟩)⟩

mutual

theorem climbs_of_unary {ts rest : List Token} {v : Value}
    (h : Leaves (unary symbols ts) v rest) :
    ∃ e, Climbs symbols .operand ts e rest ∧ e.Means symbols v := by
  rcases unary_leaves_iff.mp h with hTs | ⟨n, a, hTs, ha, rfl⟩ | ⟨after, hTs, hGroup⟩ |
    ⟨after, hTs, hRelocated⟩ | ⟨s, after, u, hTs, hUnary, rfl⟩
  · exact ⟨.num v, hTs ▸ .num v rest, trivial, rfl⟩
  · exact ⟨.name n, hTs ▸ .name (by rw [ha]; rfl) rest, trivial, by rw [Tree.value, ha]; rfl⟩
  · have hShorter : after.length < ts.length := by simp [hTs]
    obtain ⟨e, hClimbs, hMeans⟩ := climbs_of_binary (group_leaves_iff.mp hGroup)
    exact ⟨.group e, hTs ▸ .group hClimbs, hMeans⟩
  · obtain ⟨n, r, inner, u, hAfter, hName, hGroup, rfl⟩ := relocated_leaves_iff.mp hRelocated
    have hShorter : inner.length < ts.length := by simp only [hTs, hAfter, List.length_cons]; omega
    obtain ⟨e, hClimbs, hDivisors, rfl⟩ := climbs_of_binary (group_leaves_iff.mp hGroup)
    refine ⟨.relocated r e, ?_, hDivisors, (r.apply_eq_meaning _).symm⟩
    rw [hTs, hAfter]
    exact .relocated (Relocation.ofName?_eq_some_iff.mp hName) hClimbs
  · have hShorter : after.length < ts.length := by simp [hTs]
    obtain ⟨e, hClimbs, hDivisors, rfl⟩ := climbs_of_unary hUnary
    exact ⟨.signed s e, hTs ▸ .signed rfl hClimbs, hDivisors, rfl⟩
  termination_by 4 * ts.length + 1
  decreasing_by all_goals omega

theorem climbs_of_binary {k : Nat} {ts rest : List Token} {v : Value}
    (h : Leaves (binary symbols k ts) v rest) :
    ∃ e, Climbs symbols (.whole k) ts e rest ∧ e.Means symbols v := by
  obtain ⟨u, mid, hUnary, hOperators⟩ := binary_leaves_iff.mp h
  have hShorter : mid.length < ts.length := hUnary.1
  obtain ⟨e₀, hOperand, hLhs⟩ := climbs_of_unary hUnary
  obtain ⟨e, hClimbs, hMeans⟩ := climbs_of_operators hLhs hOperators
  exact ⟨e, .whole hOperand hClimbs, hMeans⟩
  termination_by 4 * ts.length + 2
  decreasing_by all_goals omega

theorem climbs_of_operators {k : Nat} {lhs : Tree} {u v : Value} {ts rest : List Token}
    (hLhs : lhs.Means symbols u) (h : Leaves (operators symbols k u ts) v rest) :
    ∃ e, Climbs symbols (.chain k lhs) ts e rest ∧ e.Means symbols v := by
  rcases operators_leaves_iff.mp h with
    ⟨hStops, rfl, rfl⟩ | ⟨o, after, w, mid, x, hTs, ho, hBinary, hApply, hOperators⟩
  · exact ⟨lhs, .stop hStops lhs, hLhs⟩
  · have hShorter : after.length < ts.length := by simp [hTs]
    have hMid : mid.length < after.length := hBinary.1
    obtain ⟨r, hRight, hr⟩ := climbs_of_binary hBinary
    have hJoined := Tree.means_binary_iff.mpr ⟨u, w, hLhs, hr, hApply⟩
    obtain ⟨e, hClimbs, hMeans⟩ := climbs_of_operators hJoined hOperators
    exact ⟨e, hTs ▸ .more ho hRight hClimbs, hMeans⟩
  termination_by 4 * ts.length
  decreasing_by all_goals omega

end

theorem ofTokens_eq_ok_iff_leaves {ts : List Token} {v : Value} :
    ofTokens symbols ts = .ok v ↔ Leaves (binary symbols 0 ts) v [] := by
  unfold ofTokens
  constructor
  · intro h
    split at h
    · cases h
    · obtain ⟨⟨u, rest, hRest⟩, hBinary, h⟩ := bind_eq_ok_iff.mp h
      dsimp only at h
      split at h <;> cases h
      exact ⟨hRest, hBinary⟩
  · rintro ⟨hRest, hBinary⟩
    have hNonempty : ts.isEmpty = false := by
      cases ts with
      | nil => cases hRest
      | cons => rfl
    rw [hNonempty, hBinary]
    rfl

theorem ofTokens_eq_ok_iff {ts : List Token} {v : Value} :
    ofTokens symbols ts = .ok v ↔ ∃ e, Derives symbols 1 e ts ∧ e.Means symbols v := by
  rw [ofTokens_eq_ok_iff_leaves]
  constructor
  · intro h
    obtain ⟨e, hClimbs, hMeans⟩ := climbs_of_binary h
    exact ⟨e, climbs_iff_derives.mp hClimbs, hMeans⟩
  · rintro ⟨e, hDerives, hMeans⟩
    exact (climbs_iff_derives.mpr hDerives).evaluates hMeans

/-- Evaluation computes the grammar: a text has at most one tree, and evaluation gives a value
exactly when there is a tree without a zero divisor, of which it is the value. Position alone
decides what a percent sign is. -/
theorem evaluate_computes_grammar (symbols : Symbols) (t : Text) :
    (∀ ts e e', Derives symbols 1 e ts → Derives symbols 1 e' ts → e = e') ∧
    (∀ ts e, Derives symbols 1 e ts → e.percents = percentsByPosition true ts) ∧
    ∀ v, evaluate symbols t = .ok v ↔
      ∃ ts e, Token.scan t = .ok ts ∧ Derives symbols 1 e ts ∧ e.NonzeroDivisors symbols ∧
        e.value symbols = v := by
  refine ⟨fun _ _ _ h h' => h.unique h', fun _ _ h => h.percents_eq, fun v => ?_⟩
  rw [evaluate, bind_eq_ok_iff]
  constructor
  · rintro ⟨ts, hScan, hTokens⟩
    obtain ⟨e, hDerives, hDivisors, hValue⟩ := ofTokens_eq_ok_iff.mp hTokens
    exact ⟨ts, e, hScan, hDerives, hDivisors, hValue⟩
  · rintro ⟨ts, e, hScan, hDerives, hDivisors, hValue⟩
    exact ⟨ts, hScan, ofTokens_eq_ok_iff.mpr ⟨e, hDerives, hDivisors, hValue⟩⟩

end Expression

end NiosBoard
