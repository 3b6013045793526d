import NiosBoard.Proofs.Assembly.Expansion

/-! # Macro expansion down to a limit

The first pass does the steps of unlimited expansion, in the same order, as long as no call is
nested deeper than the limit. Otherwise it does the steps down to the first call that is.
-/

namespace NiosBoard

open Text

namespace Draft

variable {d d' : Draft} {line : Nat} {t : Text} {m : MacroTable} {n depth : Nat}
  {lines lines' : List Text} {steps steps' : List ExpansionStep}

/-- The lines, each nested in so many calls, unfold to the end in these steps, and the first pass
does the same when it may nest `n` calls more. -/
structure Passes (m : MacroTable) (n depth : Nat) (lines : List Text)
    (steps : List ExpansionStep) : Prop where
  unfolds : ∀ agenda, Unfolds m (lines.map (depth, ·) ++ agenda) steps agenda
  shallow : ∀ k t name, .enter k t name ∈ steps → k < depth + n
  foldlM_eq : ∀ (d : Draft) line, d.macros = m →
    lines.foldlM (fun d t => d.statement n line t) d = steps.foldlM (carryOut line) d

/-- The lines unfold in these steps down to a call that is nested too deep, where the first pass
stops. -/
structure Overruns (m : MacroTable) (n depth : Nat) (lines : List Text)
    (steps : List ExpansionStep) (t name : Text) : Prop where
  call : ∃ operands, m.call? t = some (name, operands)
  unfolds : ∀ agenda, ∃ agenda',
    Unfolds m (lines.map (depth, ·) ++ agenda) steps ((depth + n, t) :: agenda')
  shallow : ∀ k t name, .enter k t name ∈ steps → k < depth + n
  foldlM_eq : ∀ (d : Draft) line, d.macros = m →
    lines.foldlM (fun d t => d.statement n line t) d =
      (steps ++ [ExpansionStep.enter (depth + n) t name]).foldlM (carryOut line) d >>= fun _ =>
        .error (Cause.atLine (.expansion (.recursionLimit name)) line)

theorem macros_of_foldlM (h : steps.foldlM (carryOut line) d = .ok d') : d'.macros = d.macros :=
  foldlM_preserves (P := fun d₁ => d₁.macros = d.macros)
    (fun _ _ _ hEq hd => (macros_of_carryOut hd).trans hEq) rfl h

theorem Passes.nil : Passes m n depth [] [] where
  unfolds := fun agenda => .done agenda
  shallow := by simp
  foldlM_eq := fun _ _ _ => rfl

theorem Passes.append (h : Passes m n depth lines steps) (h' : Passes m n depth lines' steps') :
    Passes m n depth (lines ++ lines') (steps ++ steps') where
  unfolds := by
    intro agenda
    rw [List.map_append, List.append_assoc]
    exact (h.unfolds _).trans (h'.unfolds agenda)
  shallow := by
    intro k t name hMem
    exact (List.mem_append.mp hMem).elim (h.shallow k t name) (h'.shallow k t name)
  foldlM_eq := by
    intro d line hm
    rw [List.foldlM_append, List.foldlM_append, h.foldlM_eq d line hm]
    exact bind_congr_of_ok fun d₁ hd => h'.foldlM_eq d₁ line ((macros_of_foldlM hd).trans hm)

theorem Passes.overruns {t name : Text} (h : Passes m n depth lines steps)
    (h' : Overruns m n depth lines' steps' t name) :
    Overruns m n depth (lines ++ lines') (steps ++ steps') t name where
  call := h'.call
  unfolds := by
    intro agenda
    obtain ⟨agenda', hUnfolds⟩ := h'.unfolds agenda
    rw [List.map_append, List.append_assoc]
    exact ⟨agenda', (h.unfolds _).trans hUnfolds⟩
  shallow := by
    intro k t name hMem
    exact (List.mem_append.mp hMem).elim (h.shallow k t name) (h'.shallow k t name)
  foldlM_eq := by
    intro d line hm
    rw [List.foldlM_append, List.append_assoc, List.foldlM_append, h.foldlM_eq d line hm,
      bind_assoc]
    exact bind_congr_of_ok fun d₁ hd => h'.foldlM_eq d₁ line ((macros_of_foldlM hd).trans hm)

theorem Overruns.append {t name : Text} (h : Overruns m n depth lines steps t name)
    (lines' : List Text) : Overruns m n depth (lines ++ lines') steps t name where
  call := h.call
  unfolds := by
    intro agenda
    rw [List.map_append, List.append_assoc]
    exact h.unfolds _
  shallow := h.shallow
  foldlM_eq := by
    intro d line hm
    rw [List.foldlM_append, h.foldlM_eq d line hm, bind_assoc]
    rfl

theorem Passes.leaf {t : Text} (hCall : m.call? t = none) : Passes m n depth [t] [.leaf t] where
  unfolds := fun agenda => .leaf hCall (.done agenda)
  shallow := by simp
  foldlM_eq := by
    rintro d line rfl
    simp only [List.foldlM_cons, List.foldlM_nil, statement_eq_leaf hCall, carryOut]

theorem Passes.refuse {t name operands : Text} {e : MacroError}
    (hCall : m.call? t = some (name, operands)) (hExpand : m.expand name operands = .error e) :
    Passes m (n + 1) depth [t] [.enter depth t name, .refuse e] where
  unfolds := fun agenda => .refuse hCall hExpand (.done agenda)
  shallow := by
    intro k u v hMem
    have hDepth : k = depth ∧ u = t ∧ v = name := by simpa using hMem
    omega
  foldlM_eq := by
    rintro d line rfl
    simp only [List.foldlM_cons, List.foldlM_nil, statement_eq_enter hCall, carryOut, hExpand,
      bind_assoc]

theorem Passes.enter {t name operands : Text} (hCall : m.call? t = some (name, operands))
    (hExpand : m.expand name operands = .ok lines) (h : Passes m n (depth + 1) lines steps) :
    Passes m (n + 1) depth [t] (.enter depth t name :: steps) where
  unfolds := fun agenda => .enter hCall hExpand (h.unfolds agenda)
  shallow := by
    intro k u v hMem
    rcases List.mem_cons.mp hMem with hHead | hTail
    · cases hHead
      omega
    · have := h.shallow k u v hTail
      omega
  foldlM_eq := by
    rintro d line rfl
    simp only [List.foldlM_cons, List.foldlM_nil, statement_eq_enter hCall, carryOut, hExpand,
      bind_pure]
    exact bind_congr_of_ok fun d₁ hd => h.foldlM_eq d₁ line (macros_of_enter hd)

theorem Overruns.here {t name operands : Text} (hCall : m.call? t = some (name, operands)) :
    Overruns m 0 depth [t] [] t name where
  call := ⟨operands, hCall⟩
  unfolds := fun agenda => ⟨agenda, .done _⟩
  shallow := by simp
  foldlM_eq := by
    rintro d line rfl
    simp only [List.nil_append, List.foldlM_cons, List.foldlM_nil, statement_eq_enter hCall,
      carryOut, bind_pure]

theorem Overruns.enter {t name operands u v : Text} (hCall : m.call? t = some (name, operands))
    (hExpand : m.expand name operands = .ok lines) (h : Overruns m n (depth + 1) lines steps u v) :
    Overruns m (n + 1) depth [t] (.enter depth t name :: steps) u v where
  call := h.call
  unfolds := by
    intro agenda
    obtain ⟨agenda', hUnfolds⟩ := h.unfolds agenda
    rw [Nat.add_right_comm] at hUnfolds
    exact ⟨agenda', .enter hCall hExpand hUnfolds⟩
  shallow := by
    intro k u v hMem
    rcases List.mem_cons.mp hMem with hHead | hTail
    · cases hHead
      omega
    · have := h.shallow k u v hTail
      omega
  foldlM_eq := by
    rintro d line rfl
    simp only [List.foldlM_cons, List.foldlM_nil, statement_eq_enter hCall, carryOut, hExpand,
      bind_pure, List.cons_append, bind_assoc]
    refine bind_congr_of_ok fun d₁ hd => ?_
    have hEq := h.foldlM_eq d₁ line (macros_of_enter hd)
    rw [Nat.add_right_comm] at hEq
    exact hEq

/-- How lines go, by the height of the calls below them. -/
def PassesOrOverruns (m : MacroTable) (n depth : Nat) (lines : List Text) : Prop :=
  ((∀ t ∈ lines, ∀ j, m.Branch j t → j ≤ n) ∧ ∃ steps, Passes m n depth lines steps) ∨
    ((∃ t ∈ lines, m.Branch (n + 1) t) ∧
      ∃ steps t name, Overruns m n depth lines steps t name)

theorem PassesOrOverruns.append (h : PassesOrOverruns m n depth lines)
    (h' : PassesOrOverruns m n depth lines') : PassesOrOverruns m n depth (lines ++ lines') := by
  rcases h with ⟨hHeight, steps, hPasses⟩ | ⟨⟨u, hMem, hBranch⟩, steps, t, name, hOverruns⟩
  · rcases h' with ⟨hHeight', steps', hPasses'⟩ | ⟨⟨u, hMem, hBranch⟩, steps', t, name, hOverruns⟩
    · refine .inl ⟨fun t hMem => ?_, _, hPasses.append hPasses'⟩
      exact (List.mem_append.mp hMem).elim (hHeight t) (hHeight' t)
    · exact .inr ⟨⟨u, List.mem_append_right _ hMem, hBranch⟩, _, t, name,
        hPasses.overruns hOverruns⟩
  · exact .inr ⟨⟨u, List.mem_append_left _ hMem, hBranch⟩, _, t, name, hOverruns.append lines'⟩

theorem PassesOrOverruns.leaf {t : Text} (hCall : m.call? t = none) :
    PassesOrOverruns m n depth [t] := by
  refine .inl ⟨fun u hMem j hBranch => ?_, _, .leaf hCall⟩
  obtain ⟨_, hCall'⟩ := hBranch.exists_call
  rw [List.mem_singleton.mp hMem] at hCall'
  cases hCall.symm.trans hCall'

theorem PassesOrOverruns.call {t name operands : Text} (hCall : m.call? t = some (name, operands))
    (hLines : ∀ lines, m.expand name operands = .ok lines →
      PassesOrOverruns m n (depth + 1) lines) :
    PassesOrOverruns m (n + 1) depth [t] := by
  cases hExpand : m.expand name operands with
  | error e =>
    refine .inl ⟨fun u hMem j hBranch => ?_, _, .refuse hCall hExpand⟩
    rw [List.mem_singleton.mp hMem] at hBranch
    refine hBranch.le_succ hCall fun lines hExpand' => ?_
    cases hExpand.symm.trans hExpand'
  | ok lines =>
    rcases hLines lines hExpand with
      ⟨hHeight, steps, hPasses⟩ | ⟨⟨u, hMem, hBranch⟩, steps, v, w, hOverruns⟩
    · refine .inl ⟨fun u hMem j hBranch => ?_, _, hPasses.enter hCall hExpand⟩
      rw [List.mem_singleton.mp hMem] at hBranch
      refine hBranch.le_succ hCall fun lines hExpand' => ?_
      cases hExpand.symm.trans hExpand'
      exact hHeight
    · exact .inr ⟨⟨t, List.mem_singleton_self t, .more ⟨_, _, _, hCall, hExpand, hMem⟩ hBranch⟩,
        _, v, w, hOverruns.enter hCall hExpand⟩

theorem passes_or_overruns (m : MacroTable) (n depth : Nat) (lines : List Text) :
    PassesOrOverruns m n depth lines := by
  -- on the calls that may still be nested, and for each number of them on the lines
  induction n generalizing depth lines with
  | zero =>
    induction lines with
    | nil => exact .inl ⟨by simp, [], .nil⟩
    | cons t lines ih =>
      have hHead : PassesOrOverruns m 0 depth [t] := by
        cases hCall : m.call? t with
        | none => exact .leaf hCall
        | some call =>
          exact .inr ⟨⟨t, List.mem_singleton_self t, .last hCall⟩, _, t, _, .here hCall⟩
      exact hHead.append ih
  | succ n ihn =>
    induction lines with
    | nil => exact .inl ⟨by simp, [], .nil⟩
    | cons t lines ih =>
      have hHead : PassesOrOverruns m (n + 1) depth [t] := by
        cases hCall : m.call? t with
        | none => exact .leaf hCall
        | some call => exact .call hCall fun lines _ => ihn (depth + 1) lines
      exact hHead.append ih

theorem foldlM_eq_error_of_mem {e : MacroError} (hMem : .refuse e ∈ steps) :
    ∃ e', steps.foldlM (carryOut line) d = .error e' := by
  obtain ⟨before, after, rfl⟩ := List.append_of_mem hMem
  rw [List.foldlM_append]
  exact exists_bind_error fun _ => ⟨_, rfl⟩

theorem exists_steps_of_height_le (line : Nat) {height : Nat}
    (hHeight : ∀ n, d.macros.Branch n t → n ≤ height) :
    ∃ steps, Unfolds d.macros [(0, t)] steps [] ∧
      d.statement height line t = steps.foldlM (carryOut line) d := by
  rcases passes_or_overruns d.macros height 0 [t] with
    ⟨-, steps, hPasses⟩ | ⟨⟨u, hMem, hBranch⟩, -⟩
  · have hEq := hPasses.foldlM_eq d line rfl
    rw [List.foldlM_cons] at hEq
    exact ⟨steps, hPasses.unfolds [], by simpa using hEq⟩
  · rw [List.mem_singleton.mp hMem] at hBranch
    exact absurd (hHeight _ hBranch) (Nat.not_succ_le_self height)

theorem exists_steps_of_lt_height (line : Nat) {height n : Nat} (hLt : height < n)
    (hBranch : d.macros.Branch n t) :
    ∃ steps agenda t' name operands,
      Unfolds d.macros [(0, t)] steps ((height, t') :: agenda) ∧
        d.macros.call? t' = some (name, operands) ∧
        (∀ k u v, .enter k u v ∈ steps → k < height) ∧
        d.statement height line t =
          (steps ++ [ExpansionStep.enter height t' name]).foldlM (carryOut line) d >>= fun _ =>
            .error (Cause.atLine (.expansion (.recursionLimit name)) line) := by
  rcases passes_or_overruns d.macros height 0 [t] with
    ⟨hHeight, -⟩ | ⟨-, steps, t', name, hOverruns⟩
  · exact absurd (hHeight t (List.mem_singleton_self t) n hBranch) (Nat.not_le_of_lt hLt)
  · obtain ⟨operands, hCall⟩ := hOverruns.call
    obtain ⟨agenda, hUnfolds⟩ := hOverruns.unfolds []
    have hEq := hOverruns.foldlM_eq d line rfl
    rw [List.foldlM_cons, Nat.zero_add] at hEq
    rw [Nat.zero_add] at hUnfolds
    refine ⟨steps, agenda, t', name, operands, hUnfolds, hCall, ?_, by simpa using hEq⟩
    simpa using hOverruns.shallow

/-- A statement is expanded as without a limit, step by step, when its calls are nested at most 16
deep. Otherwise the steps go down to the first call nested in 16 others, and the limit is reported
there unless an earlier step fails. A macro that reaches itself is never accepted. -/
theorem expansion_is_bounded_flattening (d : Draft) (line : Nat) (t : Text) :
    ((∀ n, d.macros.Branch n t → n ≤ 16) →
      ∃ steps, Unfolds d.macros [(0, t)] steps [] ∧
        (∀ steps', Unfolds d.macros [(0, t)] steps' [] → steps' = steps) ∧
        d.statement maxNesting line t = steps.foldlM (carryOut line) d) ∧
    ((∃ n, 16 < n ∧ d.macros.Branch n t) →
      (∃ e, d.statement maxNesting line t = .error e) ∧
      ∃ steps agenda t' name operands,
        Unfolds d.macros [(0, t)] steps ((16, t') :: agenda) ∧
          d.macros.call? t' = some (name, operands) ∧
          (∀ k u v, .enter k u v ∈ steps → k < 16) ∧
          d.statement maxNesting line t =
            (steps ++ [ExpansionStep.enter 16 t' name]).foldlM (carryOut line) d >>= fun _ =>
              .error (Cause.atLine (.expansion (.recursionLimit name)) line)) ∧
    ∀ name t', d.macros.ReachesItself name → Relation.ReflTransGen d.macros.Nested t t' →
      d.macros.Calls t' name → ∃ e, d.statement maxNesting line t = .error e := by
  have deep : ∀ n, 16 < n → d.macros.Branch n t →
      ∃ e, d.statement maxNesting line t = .error e := by
    intro n hLt hBranch
    obtain ⟨steps, agenda, t', name, operands, -, -, -, hEq⟩ :=
      exists_steps_of_lt_height line hLt hBranch
    rw [maxNesting, hEq]
    exact exists_bind_error fun _ => ⟨_, rfl⟩
  refine ⟨fun hHeight => ?_, ?_, ?_⟩
  · obtain ⟨steps, hUnfolds, hEq⟩ := exists_steps_of_height_le line hHeight
    exact ⟨steps, hUnfolds, fun _ hUnfolds' => hUnfolds'.unique hUnfolds, hEq⟩
  · rintro ⟨n, hLt, hBranch⟩
    exact ⟨deep n hLt hBranch, exists_steps_of_lt_height line hLt hBranch⟩
  · intro name t' hReaches hBelow hCalls
    by_cases hHeight : ∀ n, d.macros.Branch n t → n ≤ 16
    · obtain ⟨steps, hUnfolds, hEq⟩ := exists_steps_of_height_le line hHeight
      rcases hReaches.exists_refused_or_branch hCalls 16 with
        ⟨u, e, hBelow', hRefuses⟩ | ⟨n, hLt, hBranch⟩
      · rw [maxNesting, hEq]
        exact foldlM_eq_error_of_mem (hUnfolds.exists_refuse_mem (List.mem_singleton_self (0, t))
          (hBelow.trans hBelow') hRefuses)
      · obtain ⟨n', hLe, hBranch'⟩ := MacroTable.Branch.of_reflTransGen hBelow hBranch
        exact absurd (hHeight n' hBranch') (by omega)
    · obtain ⟨n, hn⟩ := not_forall.mp hHeight
      obtain ⟨hBranch, hLt⟩ := Classical.not_imp.mp hn
      exact deep n (Nat.lt_of_not_le hLt) hBranch

end Draft

open Draft

/-- The names of macros of which each calls the one before it. -/
def ladder : List Text :=
  ["nop", "p", "o", "n", "m", "l", "k", "j", "i", "h", "g", "f", "e", "d", "c", "b", "a"].map
    String.toList

/-- Besides the ladder there is a macro that calls itself. -/
def ladderMacros : MacroTable :=
  ⟨(ladder.tail.zip ladder).foldl (fun table (name, called) => table.insert name ⟨[], [called]⟩)
    (MacroTable.builtIn.table.insert "forever".toList ⟨[], ["forever".toList]⟩)⟩

theorem call?_ladder : ∀ i < 17, ladderMacros.call? (ladder.getD i []) =
    some (ladder.getD i [], []) := by
  decide +kernel

theorem expand_ladder : ∀ i < 16,
    ladderMacros.expand (ladder.getD (i + 1) []) [] = .ok [ladder.getD i []] := by
  decide +kernel

theorem expand_nop : ladderMacros.expand (ladder.getD 0 []) [] =
    .ok ["add r0, r0, r0".toList] := by
  decide +kernel

theorem branch_ladder {i : Nat} (hi : i < 17) : ladderMacros.Branch (i + 1) (ladder.getD i []) := by
  induction i with
  | zero => exact .last (call?_ladder 0 hi)
  | succ i ih =>
    have hNested : ladderMacros.Nested (ladder.getD (i + 1) []) (ladder.getD i []) :=
      ⟨_, _, _, call?_ladder (i + 1) hi, expand_ladder i (by omega), List.mem_singleton_self _⟩
    exact .more hNested (ih (by omega))

theorem le_of_branch_ladder {i n : Nat} (hi : i < 17)
    (h : ladderMacros.Branch n (ladder.getD i [])) : n ≤ i + 1 := by
  induction i generalizing n with
  | zero =>
    refine h.le_succ (call?_ladder 0 hi) fun lines hExpand t ht j hBranch => ?_
    cases expand_nop.symm.trans hExpand
    rw [List.mem_singleton.mp ht] at hBranch
    have hPlain : ladderMacros.call? "add r0, r0, r0".toList = none := by decide +kernel
    obtain ⟨_, hCall⟩ := hBranch.exists_call
    cases hPlain.symm.trans hCall
  | succ i ih =>
    refine h.le_succ (call?_ladder (i + 1) hi) fun lines hExpand t ht j hBranch => ?_
    cases (expand_ladder i (by omega)).symm.trans hExpand
    rw [List.mem_singleton.mp ht] at hBranch
    exact ih (by omega) hBranch

theorem call?_forever :
    ladderMacros.call? "forever".toList = some ("forever".toList, []) := by
  decide +kernel

theorem reachesItself_forever : ladderMacros.ReachesItself "forever".toList := by
  rintro t ⟨written, operands, hCall, hName⟩
  have hGet : ladderMacros.get? written = some ⟨[], ["forever".toList]⟩ := by
    rw [MacroTable.get?, hName]
    decide +kernel
  by_cases hOperands : splitOperands operands = []
  · refine .inr ⟨"forever".toList, .single ⟨written, operands, ["forever".toList], hCall, ?_,
      List.mem_singleton_self _⟩, _, _, call?_forever, rfl⟩
    have hBody : substitute (fun _ => none) "forever".toList = "forever".toList := by
      decide +kernel
    rw [MacroTable.expand, hGet]
    simpa [hOperands] using hBody
  · have hRefused : ladderMacros.expand written operands =
        .error (.argumentCount written 0 (splitOperands operands).length) := by
      rw [MacroTable.expand, hGet]
      exact if_pos (by simpa using hOperands)
    exact .inl ⟨_, written, operands, hCall, hRefused⟩

def ladderDraft : Draft := { Draft.new with macros := ladderMacros }

/-- Sixteen nested calls pass, seventeen do not, nor does a macro that calls itself. -/
theorem expansion_is_bounded_flattening_ladder :
    (∃ steps, Unfolds ladderMacros [(0, ['b'])] steps [] ∧
      (∀ steps', Unfolds ladderMacros [(0, ['b'])] steps' [] → steps' = steps) ∧
      ladderDraft.statement maxNesting 7 ['b'] = steps.foldlM (carryOut 7) ladderDraft) ∧
    (∃ e, ladderDraft.statement maxNesting 7 ['a'] = .error e) ∧
    ∃ e, ladderDraft.statement maxNesting 7 "forever".toList = .error e := by
  refine ⟨(expansion_is_bounded_flattening ladderDraft 7 ['b']).1 fun n hBranch => ?_,
    ((expansion_is_bounded_flattening ladderDraft 7 ['a']).2.1 ⟨17, by decide, ?_⟩).1,
    (expansion_is_bounded_flattening ladderDraft 7 "forever".toList).2.2 "forever".toList _
      reachesItself_forever .refl ⟨_, _, call?_forever, rfl⟩⟩
  · exact le_of_branch_ladder (i := 15) (by decide) hBranch
  · exact branch_ladder (i := 16) (by decide)

end NiosBoard
