import NiosBoard.Proofs.Expression.Evaluation

/-! # The names in an expression

What an expression evaluates to, and which error it gives, depends on the names that occur in it and
on no other.
-/

namespace NiosBoard

namespace Expression

def tokenName? : Token → Option Text
  | .ident name => some name
  | _ => none

/-- The names among the tokens of a text. A text that has no tokens has no names. -/
def names (t : Text) : List Text :=
  match Token.scan t with
  | .ok ts => ts.filterMap tokenName?
  | .error _ => []

variable {symbols symbols' : Symbols}

/-- The symbols agree on the names among the tokens. -/
def Agree (symbols symbols' : Symbols) (ts : List Token) : Prop :=
  ∀ name, .ident name ∈ ts → symbols' name = symbols name

theorem Agree.mono {ts rest : List Token} (h : Agree symbols symbols' ts) (hRest : rest ⊆ ts) :
    Agree symbols symbols' rest := fun name hName => h name (hRest hName)

theorem Agree.of_cons {t : Token} {ts : List Token} (h : Agree symbols symbols' (t :: ts)) :
    Agree symbols symbols' ts := h.mono (List.subset_cons_self t ts)

/-! ### What is left of the tokens -/

theorem subset_of_unary {ts rest : List Token} {v : Value} {h : rest.length < ts.length}
    (hUnary : unary symbols ts = .ok (v, ⟨rest, h⟩)) : rest ⊆ ts := by
  obtain ⟨e, hClimbs, -⟩ := climbs_of_unary ⟨h, hUnary⟩
  obtain ⟨used, rfl, -⟩ := hClimbs.accounts
  exact List.subset_append_right used rest

theorem subset_of_binary {k : Nat} (hk : k ≤ 6) {ts rest : List Token} {v : Value}
    {h : rest.length < ts.length} (hBinary : binary symbols k ts = .ok (v, ⟨rest, h⟩)) :
    rest ⊆ ts := by
  obtain ⟨e, hClimbs, -⟩ := climbs_of_binary ⟨h, hBinary⟩
  obtain ⟨used, rfl, -⟩ := hClimbs.accounts hk
  exact List.subset_append_right used rest

/-! ### Evaluation -/

mutual

theorem binary_congr (k : Nat) (ts : List Token) (h : Agree symbols symbols' ts) :
    binary symbols' k ts = binary symbols k ts := by
  rw [binary, binary, unary_congr ts h]
  cases hUnary : unary symbols ts with
  | error e => rfl
  | ok result =>
    obtain ⟨lhs, rest, hRest⟩ := result
    simp only [operators_congr k lhs rest (h.mono (subset_of_unary hUnary))]
  termination_by 4 * ts.length + 2
  decreasing_by all_goals omega

theorem operators_congr (k : Nat) (lhs : Value) (ts : List Token)
    (h : Agree symbols symbols' ts) :
    operators symbols' k lhs ts = operators symbols k lhs ts := by
  rw [operators.eq_def, operators.eq_def]
  split
  · next o rest =>
    split
    · rfl
    rw [binary_congr (o.tier + 1) rest h.of_cons]
    cases hBinary : binary symbols (o.tier + 1) rest with
    | error e => rfl
    | ok result =>
      obtain ⟨rhs, rest', hRest⟩ := result
      have hMono := h.of_cons.mono (subset_of_binary (tier_lt_six o) hBinary)
      simp only
      cases o.apply lhs rhs with
      | error e => rfl
      | ok value => simp only [operators_congr k value rest' hMono]
  · rfl
  termination_by 4 * ts.length
  decreasing_by all_goals grind

theorem group_congr (ts : List Token) (h : Agree symbols symbols' ts) :
    group symbols' ts = group symbols ts := by
  rw [group, group, binary_congr 0 ts h]
  termination_by 4 * ts.length + 3
  decreasing_by all_goals omega

theorem relocated_congr (ts : List Token) (h : Agree symbols symbols' ts) :
    relocated symbols' ts = relocated symbols ts := by
  rw [relocated.eq_def, relocated.eq_def]
  split
  · rfl
  · next name rest =>
    split
    · rfl
    cases hOpen : expect .open "(" rest with
    | error e => rfl
    | ok result =>
      obtain ⟨rest', hRest⟩ := result
      have hSubset : rest' ⊆ rest := by
        unfold expect at hOpen
        split at hOpen
        · cases hOpen
        · split at hOpen
          · cases hOpen
            exact List.subset_cons_self _ _
          · cases hOpen
      simp only [group_congr rest' (h.of_cons.mono hSubset)]
  · rfl
  termination_by 4 * ts.length
  decreasing_by all_goals grind

theorem unary_congr (ts : List Token) (h : Agree symbols symbols' ts) :
    unary symbols' ts = unary symbols ts := by
  rw [unary.eq_def, unary.eq_def]
  cases ts with
  | nil => rfl
  | cons t rest =>
    simp only
    split
    · rw [unary_congr rest h.of_cons]
    split
    · rw [relocated_congr rest h.of_cons]
    · rw [group_congr rest h.of_cons]
    · rfl
    · next name _ => rw [h name List.mem_cons_self]
    · rfl
  termination_by 4 * ts.length + 1
  decreasing_by all_goals grind

end

/-- Only the names in an expression are looked up. -/
theorem evaluate_congr {t : Text} (h : ∀ name ∈ names t, symbols' name = symbols name) :
    evaluate symbols' t = evaluate symbols t := by
  rw [evaluate, evaluate]
  rw [names] at h
  cases hScan : Token.scan t with
  | error e => rfl
  | ok ts =>
    rw [hScan] at h
    have hAgree : Agree symbols symbols' ts := by
      intro name hName
      exact h name (List.mem_filterMap.mpr ⟨.ident name, hName, rfl⟩)
    show ofTokens symbols' ts = ofTokens symbols ts
    rw [ofTokens, ofTokens, binary_congr 0 ts hAgree]

end Expression

end NiosBoard
