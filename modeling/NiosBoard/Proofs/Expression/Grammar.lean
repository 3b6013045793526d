import Mathlib
import NiosBoard.Expression.Evaluate

/-! # The grammar of operand expressions

A stratified grammar: the operators of a tier join an expression of that tier to one of the next
tier, and operands stand above the tightest tier. Precedence climbing, as a relation between token
lists and trees, reads exactly the derivable token lists, so a list has at most one tree.
-/

namespace NiosBoard

def Relocation.name : Relocation → Text
  | .lo => "lo".toList
  | .hi => "hi".toList
  | .hiadj => "hiadj".toList

theorem Relocation.ofName?_eq_some_iff {n : Text} {r : Relocation} :
    ofName? n = some r ↔ Text.lowercase n = r.name := by
  unfold ofName?
  constructor
  · intro h
    split at h
    · next hName => cases h; exact hName
    · split at h
      · next hName => cases h; exact hName
      · split at h
        · next hName => cases h; exact hName
        · cases h
  · intro h
    cases r <;> rw [h] <;> rfl

namespace Expression

inductive Sign where
  | minus
  | plus
  | complement
  deriving DecidableEq, Repr

def Sign.token : Sign → Token
  | .minus => .op .sub
  | .plus => .op .add
  | .complement => .tilde

theorem Sign.token_injective {s s' : Sign} (h : s.token = s'.token) : s = s' := by
  cases s <;> cases s' <;> first | rfl | cases h

inductive Tree where
  | num (value : Value)
  | name (name : Text)
  | group (inner : Tree)
  | relocated (r : Relocation) (inner : Tree)
  | signed (s : Sign) (operand : Tree)
  | binary (o : BinaryOp) (lhs rhs : Tree)
  deriving DecidableEq, Repr

/-- The binary operators of each tier, 5 the tightest. -/
def operatorsOf : Nat → List BinaryOp
  | 5 => [.shl, .shr, .ushr]
  | 4 => [.and]
  | 3 => [.or, .xor]
  | 2 => [.mul, .div, .rem]
  | 1 => [.add, .sub]
  | _ => []

theorem mem_operatorsOf {o : BinaryOp} {k : Nat} : o ∈ operatorsOf k ↔ o.tier = k := by
  constructor
  · intro h
    unfold operatorsOf at h
    split at h <;> simp at h
    all_goals rcases h with rfl | rfl | rfl <;> rfl
  · rintro rfl
    cases o <;> simp [operatorsOf, BinaryOp.tier]

theorem tier_lt_six (o : BinaryOp) : o.tier < 6 := by
  cases o <;> decide

/-- The tokens spell the tree as an expression of the tier; tier 6 holds the operands. -/
inductive Derives (symbols : Symbols) : Nat → Tree → List Token → Prop
  | num (v : Value) : Derives symbols 6 (.num v) [.num v]
  | name {n : Text} (hn : (symbols n).isSome) : Derives symbols 6 (.name n) [.ident n]
  | group {e : Tree} {ts : List Token} (h : Derives symbols 1 e ts) :
      Derives symbols 6 (.group e) (.open :: (ts ++ [.close]))
  | relocated {r : Relocation} {n : Text} {e : Tree} {ts : List Token}
      (hn : Text.lowercase n = r.name) (h : Derives symbols 1 e ts) :
      Derives symbols 6 (.relocated r e) (.op .rem :: .ident n :: .open :: (ts ++ [.close]))
  | signed (s : Sign) {e : Tree} {ts : List Token} (h : Derives symbols 6 e ts) :
      Derives symbols 6 (.signed s e) (s.token :: ts)
  | tighter {k : Nat} {e : Tree} {ts : List Token} (hk : k < 6)
      (h : Derives symbols (k + 1) e ts) : Derives symbols k e ts
  | binary {k : Nat} {o : BinaryOp} {l r : Tree} {ls rs : List Token} (ho : o ∈ operatorsOf k)
      (hl : Derives symbols k l ls) (hr : Derives symbols (k + 1) r rs) :
      Derives symbols k (.binary o l r) (ls ++ .op o :: rs)

inductive Percent where
  | relocation
  | remainder
  deriving DecidableEq, Repr

/-- The percent signs of a tree from left to right. -/
def Tree.percents : Tree → List Percent
  | .num _ => []
  | .name _ => []
  | .group e => e.percents
  | .relocated _ e => .relocation :: e.percents
  | .signed _ e => e.percents
  | .binary o l r => l.percents ++ (if o = .rem then [.remainder] else []) ++ r.percents

/-- Whether an operand has to come after the token. -/
def Token.wantsOperand : Token → Bool
  | .num _ => false
  | .ident _ => false
  | .open => true
  | .close => false
  | .op _ => true
  | .tilde => true

/-- What the percent signs are by their position alone, where `operand` says whether an operand
comes first: relocations in operand position, remainders in operator position. -/
def percentsByPosition (operand : Bool) : List Token → List Percent
  | [] => []
  | t :: ts =>
    (if t = .op .rem then [if operand then .relocation else .remainder] else []) ++
      percentsByPosition (Token.wantsOperand t) ts

variable {symbols : Symbols}

namespace Derives

theorem loosen {j k : Nat} {e : Tree} {ts : List Token} (h : Derives symbols j e ts) (hk : k ≤ j)
    (hj : j ≤ 6) : Derives symbols k e ts := by
  induction hk using Nat.decreasingInduction with
  | self => exact h
  | of_succ i hi ih => exact .tighter (by omega) ih

theorem tier_one_of_zero {e : Tree} {ts : List Token} (h : Derives symbols 0 e ts) :
    Derives symbols 1 e ts := by
  cases h with
  | tighter _ h => exact h
  | binary ho _ _ => cases ho

theorem percents_append {k : Nat} {e : Tree} {ts : List Token} (h : Derives symbols k e ts)
    (rest : List Token) :
    percentsByPosition true (ts ++ rest) = e.percents ++ percentsByPosition false rest := by
  induction h generalizing rest with
  | num v => rfl
  | name hn => rfl
  | @group e ts h ih =>
    simp [percentsByPosition, Tree.percents, Token.wantsOperand, ih]
  | @relocated r n e ts hn h ih =>
    simp [percentsByPosition, Tree.percents, Token.wantsOperand, ih]
  | @signed s e ts h ih =>
    cases s <;> simp [percentsByPosition, Tree.percents, Token.wantsOperand, Sign.token, ih]
  | tighter _ _ ih => exact ih rest
  | @binary k o l r ls rs ho hl hr ihl ihr =>
    simp [percentsByPosition, Tree.percents, Token.wantsOperand, ihl, ihr]

theorem percents_eq {k : Nat} {e : Tree} {ts : List Token} (h : Derives symbols k e ts) :
    e.percents = percentsByPosition true ts := by
  simpa [percentsByPosition] using (h.percents_append []).symm

end Derives

/-- No operator of the tier or a tighter one comes next. -/
def Stops (k : Nat) (ts : List Token) : Prop := ∀ o rest, ts = .op o :: rest → o.tier < k

theorem Stops.mono {k k' : Nat} {ts : List Token} (h : Stops k ts) (hk : k ≤ k') : Stops k' ts :=
  fun o rest hEq => Nat.lt_of_lt_of_le (h o rest hEq) hk

theorem stops_nil (k : Nat) : Stops k [] := by
  intro o rest h
  cases h

theorem stops_close (k : Nat) (ts : List Token) : Stops k (.close :: ts) := by
  intro o rest h
  cases h

theorem stops_op {k : Nat} {o : BinaryOp} {ts : List Token} :
    Stops k (.op o :: ts) ↔ o.tier < k := by
  constructor
  · intro h
    exact h o ts rfl
  · rintro h _ _ ⟨⟩
    exact h

/-- What climbing is about to read. -/
inductive Goal where
  | operand
  | whole (tier : Nat)
  /-- The operators of at least the tier after a left operand. -/
  | chain (tier : Nat) (lhs : Tree)

/-- Precedence climbing: the goal is read from the front of the first list and leaves the second. -/
inductive Climbs (symbols : Symbols) : Goal → List Token → Tree → List Token → Prop
  | num (v : Value) (rest : List Token) : Climbs symbols .operand (.num v :: rest) (.num v) rest
  | name {n : Text} (hn : (symbols n).isSome) (rest : List Token) :
      Climbs symbols .operand (.ident n :: rest) (.name n) rest
  | group {e : Tree} {ts rest : List Token} (h : Climbs symbols (.whole 0) ts e (.close :: rest)) :
      Climbs symbols .operand (.open :: ts) (.group e) rest
  | relocated {r : Relocation} {n : Text} {e : Tree} {ts rest : List Token}
      (hn : Text.lowercase n = r.name) (h : Climbs symbols (.whole 0) ts e (.close :: rest)) :
      Climbs symbols .operand (.op .rem :: .ident n :: .open :: ts) (.relocated r e) rest
  | signed {s : Sign} {t : Token} {e : Tree} {ts rest : List Token} (ht : t = s.token)
      (h : Climbs symbols .operand ts e rest) :
      Climbs symbols .operand (t :: ts) (.signed s e) rest
  | whole {k : Nat} {e₀ e : Tree} {ts mid rest : List Token}
      (h₀ : Climbs symbols .operand ts e₀ mid) (h : Climbs symbols (.chain k e₀) mid e rest) :
      Climbs symbols (.whole k) ts e rest
  | stop {k : Nat} {ts : List Token} (h : Stops k ts) (e : Tree) :
      Climbs symbols (.chain k e) ts e ts
  | more {k : Nat} {o : BinaryOp} {l r e : Tree} {ts mid rest : List Token} (ho : k ≤ o.tier)
      (hr : Climbs symbols (.whole (o.tier + 1)) ts r mid)
      (h : Climbs symbols (.chain k (.binary o l r)) mid e rest) :
      Climbs symbols (.chain k l) (.op o :: ts) e rest

namespace Climbs

theorem unique {g : Goal} {ts rest rest' : List Token} {e e' : Tree}
    (h : Climbs symbols g ts e rest) (h' : Climbs symbols g ts e' rest') :
    e = e' ∧ rest = rest' := by
  induction h generalizing e' rest' with
  | num v rest =>
    cases h' with
    | num => exact ⟨rfl, rfl⟩
    | @signed s _ _ _ _ ht _ => cases s <;> cases ht
  | name hn rest =>
    cases h' with
    | name => exact ⟨rfl, rfl⟩
    | @signed s _ _ _ _ ht _ => cases s <;> cases ht
  | group _ ih =>
    cases h' with
    | group h' =>
      obtain ⟨rfl, hRest⟩ := ih h'
      exact ⟨rfl, List.tail_eq_of_cons_eq hRest⟩
    | @signed s _ _ _ _ ht _ => cases s <;> cases ht
  | @relocated r _ _ _ _ hn _ ih =>
    cases h' with
    | @relocated r' _ _ _ _ hn' h' =>
      obtain ⟨rfl, hRest⟩ := ih h'
      have hName := (Relocation.ofName?_eq_some_iff.mpr hn).symm.trans
        (Relocation.ofName?_eq_some_iff.mpr hn')
      cases hName
      exact ⟨rfl, List.tail_eq_of_cons_eq hRest⟩
    | @signed s _ _ _ _ ht _ => cases s <;> cases ht
  | @signed s _ _ _ _ ht _ ih =>
    cases h' with
    | num | name | group | relocated => cases s <;> cases ht
    | signed ht' h' =>
      obtain ⟨rfl, rfl⟩ := ih h'
      cases Sign.token_injective (ht.symm.trans ht')
      exact ⟨rfl, rfl⟩
  | whole _ _ ih₀ ih =>
    cases h' with
    | whole h₀' h' =>
      obtain ⟨rfl, rfl⟩ := ih₀ h₀'
      exact ih h'
  | stop hStops e =>
    cases h' with
    | stop => exact ⟨rfl, rfl⟩
    | more ho _ _ => exact absurd ho (Nat.not_le_of_lt (stops_op.mp hStops))
  | more ho _ _ ihr ih =>
    cases h' with
    | stop hStops => exact absurd ho (Nat.not_le_of_lt (stops_op.mp hStops))
    | more _ hr' h' =>
      obtain ⟨rfl, rfl⟩ := ihr hr'
      exact ih h'

/-- What the tokens read are in the grammar, for each goal. -/
def Accounts (symbols : Symbols) (ts : List Token) (e : Tree) (rest : List Token) : Goal → Prop
  | .operand => ∃ used, ts = used ++ rest ∧ Derives symbols 6 e used
  | .whole k => k ≤ 6 → ∃ used, ts = used ++ rest ∧ Derives symbols k e used ∧ Stops k rest
  | .chain k lhs => ∀ j ls, k ≤ j → j ≤ 6 → Derives symbols j lhs ls → Stops (j + 1) ts →
      ∃ used, ts = used ++ rest ∧ Derives symbols k e (ls ++ used) ∧ Stops k rest

theorem accounts {g : Goal} {ts rest : List Token} {e : Tree} (h : Climbs symbols g ts e rest) :
    Accounts symbols ts e rest g := by
  induction h with
  | num v rest => exact ⟨[.num v], rfl, .num v⟩
  | @name n hn rest => exact ⟨[.ident n], rfl, .name hn⟩
  | @group e ts rest _ ih =>
    obtain ⟨used, rfl, hUsed, -⟩ := ih (Nat.zero_le 6)
    exact ⟨.open :: (used ++ [.close]), by simp, .group hUsed.tier_one_of_zero⟩
  | @relocated r n e ts rest hn _ ih =>
    obtain ⟨used, rfl, hUsed, -⟩ := ih (Nat.zero_le 6)
    exact ⟨.op .rem :: .ident n :: .open :: (used ++ [.close]), by simp,
      .relocated hn hUsed.tier_one_of_zero⟩
  | @signed s t e ts rest ht _ ih =>
    obtain ⟨used, rfl, hUsed⟩ := ih
    exact ⟨s.token :: used, by rw [ht]; rfl, .signed s hUsed⟩
  | @whole k e₀ e ts mid rest _ _ ih₀ ih =>
    intro hk
    obtain ⟨ls, rfl, hLs⟩ := ih₀
    have hStops : Stops 7 mid := fun o _ _ => Nat.lt_succ_of_lt (tier_lt_six o)
    obtain ⟨used, rfl, hUsed, hRest⟩ := ih 6 ls hk (Nat.le_refl 6) hLs hStops
    exact ⟨ls ++ used, (List.append_assoc ..).symm, hUsed, hRest⟩
  | stop hStops e =>
    intro j ls hk hj hLhs _
    exact ⟨[], rfl, by simpa using hLhs.loosen hk hj, hStops⟩
  | @more k o l r e ts mid rest ho _ _ ihr ih =>
    -- the left operand is of the tier of the last operator read, so the next one is no tighter,
    -- and the joined expression is the left operand for the tier of that one
    intro j ls hk hj hLhs hStops
    have hTier : o.tier ≤ j := Nat.le_of_lt_succ (stops_op.mp hStops)
    obtain ⟨rs, rfl, hRs, hMid⟩ := ihr (tier_lt_six o)
    have hBinary := Derives.binary (mem_operatorsOf.mpr rfl) (hLhs.loosen hTier hj) hRs
    obtain ⟨used, rfl, hUsed, hRest⟩ :=
      ih o.tier _ ho (Nat.le_of_lt (tier_lt_six o)) hBinary hMid
    exact ⟨.op o :: (rs ++ used), by simp, by simpa using hUsed, hRest⟩

end Climbs

/-- An operand is read as such, and an expression of a tier as the left operand of any chain of that
tier or a looser one. -/
theorem Derives.climbs {k : Nat} {e : Tree} {ts : List Token} (h : Derives symbols k e ts) :
    (k = 6 → ∀ rest, Climbs symbols .operand (ts ++ rest) e rest) ∧
    ∀ m rest e' rest', m ≤ k → Stops (k + 1) rest → Climbs symbols (.chain m e) rest e' rest' →
      Climbs symbols (.whole m) (ts ++ rest) e' rest' := by
  have of_operand : ∀ {e : Tree} {ts : List Token},
      (∀ rest, Climbs symbols .operand (ts ++ rest) e rest) →
      (6 = 6 → ∀ rest, Climbs symbols .operand (ts ++ rest) e rest) ∧
      ∀ m rest e' rest', m ≤ 6 → Stops (6 + 1) rest → Climbs symbols (.chain m e) rest e' rest' →
        Climbs symbols (.whole m) (ts ++ rest) e' rest' :=
    fun hOperand => ⟨fun _ => hOperand, fun _ rest _ _ _ _ h => .whole (hOperand rest) h⟩
  induction h with
  | num v => exact of_operand fun rest => .num v rest
  | name hn => exact of_operand fun rest => .name hn rest
  | @group e ts _ ih =>
    refine of_operand fun rest => ?_
    have hInner := ih.2 0 (.close :: rest) e _ (Nat.zero_le 1) (stops_close _ rest)
      (.stop (stops_close 0 rest) e)
    simpa using Climbs.group hInner
  | @relocated r n e ts hn _ ih =>
    refine of_operand fun rest => ?_
    have hInner := ih.2 0 (.close :: rest) e _ (Nat.zero_le 1) (stops_close _ rest)
      (.stop (stops_close 0 rest) e)
    simpa using Climbs.relocated hn hInner
  | signed s _ ih => exact of_operand fun rest => .signed rfl (ih.1 rfl rest)
  | @tighter k e ts hk _ ih =>
    refine ⟨fun hEq => absurd hEq (Nat.ne_of_lt hk), fun m rest e' rest' hm hStops h => ?_⟩
    exact ih.2 m rest e' rest' (Nat.le_succ_of_le hm) (hStops.mono (Nat.le_succ _)) h
  | @binary k o l r ls rs ho _ _ ihl ihr =>
    have hTier : o.tier = k := mem_operatorsOf.mp ho
    refine ⟨fun hEq => absurd (hTier.trans hEq) (Nat.ne_of_lt (tier_lt_six o)), ?_⟩
    intro m rest e' rest' hm hStops h
    subst hTier
    -- nothing that follows the right operand belongs to it, so the chain goes on with the whole
    have hRight := ihr.2 (o.tier + 1) rest r rest (Nat.le_refl _) (hStops.mono (Nat.le_succ _))
      (.stop hStops r)
    have hLeft := ihl.2 m (.op o :: (rs ++ rest)) e' rest' hm (stops_op.mpr (Nat.lt_succ_self _))
      (.more hm hRight h)
    simpa using hLeft

theorem climbs_iff_derives {ts : List Token} {e : Tree} :
    Climbs symbols (.whole 0) ts e [] ↔ Derives symbols 1 e ts := by
  constructor
  · intro h
    obtain ⟨used, rfl, hUsed, -⟩ := h.accounts (Nat.zero_le 6)
    simpa using hUsed.tier_one_of_zero
  · intro h
    simpa using h.climbs.2 0 [] e [] (Nat.zero_le 1) (stops_nil 2) (.stop (stops_nil 0) e)

theorem Derives.unique {ts : List Token} {e e' : Tree} (h : Derives symbols 1 e ts)
    (h' : Derives symbols 1 e' ts) : e = e' :=
  ((climbs_iff_derives.mpr h).unique (climbs_iff_derives.mpr h')).1

end Expression

end NiosBoard
