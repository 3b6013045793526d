import Mathlib.Logic.Relation
import NiosBoard.Proofs.Assembly.FirstPass

/-! # Macro expansion without a limit

Expansion keeps an agenda of lines, each with the number of calls it is nested in. A call is
entered, and the lines it stands for take its place in front of the agenda. A statement of the first
pass carries out a line that calls no macro, and the labels of one that does.
-/

namespace NiosBoard

open Text

namespace MacroTable

/-- The macro that a line calls, and the text of the operands. -/
def call? (m : MacroTable) (t : Text) : Option (Text × Text) :=
  let body := trim (Line.labels t).2
  if body = [] ∨ body.head? = some '.' then none
  else (Line.mnemonic? body).filter fun call => m.contains call.1

/-- The second line is one of those that the first, a call, stands for. -/
def Nested (m : MacroTable) (t t' : Text) : Prop :=
  ∃ name operands lines, m.call? t = some (name, operands) ∧
    m.expand name operands = .ok lines ∧ t' ∈ lines

/-- So many calls, each in a line that the one before stands for, the first in this line. -/
inductive Branch (m : MacroTable) : Nat → Text → Prop
  | last {t : Text} {call : Text × Text} (h : m.call? t = some call) : Branch m 1 t
  | more {n : Nat} {t t' : Text} (h : m.Nested t t') (h' : Branch m n t') : Branch m (n + 1) t

/-- The line calls the macro, its name in any case. -/
def Calls (m : MacroTable) (t name : Text) : Prop :=
  ∃ written operands, m.call? t = some (written, operands) ∧ lowercase written = lowercase name

def Refuses (m : MacroTable) (t : Text) (e : MacroError) : Prop :=
  ∃ name operands, m.call? t = some (name, operands) ∧ m.expand name operands = .error e

/-- Whatever its operands, a call of the macro is refused or has a call of it below. Some calls of
other macros may do so too, where an operand brings the name in. -/
def ReachesItself (m : MacroTable) (name : Text) : Prop :=
  ∀ t, m.Calls t name → (∃ e, m.Refuses t e) ∨
    ∃ t', Relation.TransGen m.Nested t t' ∧ m.Calls t' name

theorem Nested.exists_lines {m : MacroTable} {t t' name operands : Text} (h : m.Nested t t')
    (hCall : m.call? t = some (name, operands)) :
    ∃ lines, m.expand name operands = .ok lines ∧ t' ∈ lines := by
  obtain ⟨_, _, lines, hCall', hExpand, hMem⟩ := h
  cases hCall.symm.trans hCall'
  exact ⟨lines, hExpand, hMem⟩

theorem Refuses.expand_eq {m : MacroTable} {t name operands : Text} {e : MacroError}
    (h : m.Refuses t e) (hCall : m.call? t = some (name, operands)) :
    m.expand name operands = .error e := by
  obtain ⟨_, _, hCall', hExpand⟩ := h
  cases hCall.symm.trans hCall'
  exact hExpand

theorem Branch.exists_call {m : MacroTable} {n : Nat} {t : Text} (h : m.Branch n t) :
    ∃ call, m.call? t = some call := by
  cases h with
  | last hCall => exact ⟨_, hCall⟩
  | more hNested _ =>
    obtain ⟨_, _, _, hCall, -⟩ := hNested
    exact ⟨_, hCall⟩

theorem Branch.le_succ {m : MacroTable} {n k : Nat} {t name operands : Text} (h : m.Branch k t)
    (hCall : m.call? t = some (name, operands))
    (hLines : ∀ lines, m.expand name operands = .ok lines →
      ∀ t' ∈ lines, ∀ j, m.Branch j t' → j ≤ n) : k ≤ n + 1 := by
  cases h with
  | last => omega
  | more hNested hBranch =>
    obtain ⟨lines, hExpand, hMem⟩ := hNested.exists_lines hCall
    exact Nat.succ_le_succ (hLines lines hExpand _ hMem _ hBranch)

theorem Branch.of_reflTransGen {m : MacroTable} {n : Nat} {t t' : Text}
    (h : Relation.ReflTransGen m.Nested t t') (hBranch : m.Branch n t') :
    ∃ n', n ≤ n' ∧ m.Branch n' t := by
  induction h using Relation.ReflTransGen.head_induction_on with
  | refl => exact ⟨n, Nat.le_refl n, hBranch⟩
  | head h _ ih =>
    obtain ⟨n', hLe, hBranch'⟩ := ih
    exact ⟨n' + 1, Nat.le_succ_of_le hLe, .more h hBranch'⟩

theorem Branch.of_transGen {m : MacroTable} {n : Nat} {t t' : Text}
    (h : Relation.TransGen m.Nested t t') (hBranch : m.Branch n t') :
    ∃ n', n < n' ∧ m.Branch n' t := by
  obtain ⟨u, hNested, hReaches⟩ := Relation.TransGen.head'_iff.mp h
  obtain ⟨n', hLe, hBranch'⟩ := Branch.of_reflTransGen hReaches hBranch
  exact ⟨n' + 1, Nat.lt_succ_of_le hLe, .more hNested hBranch'⟩

/-- Below a call of a macro that reaches itself there is no end, unless a call is refused. -/
theorem ReachesItself.exists_refused_or_branch {m : MacroTable} {name t : Text}
    (h : m.ReachesItself name) (hCalls : m.Calls t name) (n : Nat) :
    (∃ t' e, Relation.ReflTransGen m.Nested t t' ∧ m.Refuses t' e) ∨
      ∃ n', n < n' ∧ m.Branch n' t := by
  induction n generalizing t with
  | zero =>
    obtain ⟨written, operands, hCall, -⟩ := hCalls
    exact .inr ⟨1, Nat.one_pos, .last hCall⟩
  | succ n ih =>
    rcases h t hCalls with ⟨e, hRefuses⟩ | ⟨t', hBelow, hCalls'⟩
    · exact .inl ⟨t, e, .refl, hRefuses⟩
    rcases ih hCalls' with ⟨u, e, hReaches, hRefuses⟩ | ⟨n', hLt, hBranch⟩
    · exact .inl ⟨u, e, hBelow.to_reflTransGen.trans hReaches, hRefuses⟩
    · obtain ⟨n'', hLt', hBranch'⟩ := Branch.of_transGen hBelow hBranch
      exact .inr ⟨n'', by omega, hBranch'⟩

end MacroTable

/-! ### The steps of an expansion -/

/-- What reading a line does. -/
inductive ExpansionStep where
  | leaf (t : Text)
  /-- The labels of a call of the macro, nested in so many others. -/
  | enter (depth : Nat) (t name : Text)
  | refuse (e : MacroError)
  deriving DecidableEq, Repr

/-- The agenda goes over into the last one, by these steps. -/
inductive Unfolds (m : MacroTable) :
    List (Nat × Text) → List ExpansionStep → List (Nat × Text) → Prop
  | done (agenda : List (Nat × Text)) : Unfolds m agenda [] agenda
  | leaf {depth : Nat} {t : Text} {steps : List ExpansionStep} {agenda last : List (Nat × Text)}
      (hCall : m.call? t = none) (h : Unfolds m agenda steps last) :
      Unfolds m ((depth, t) :: agenda) (.leaf t :: steps) last
  | refuse {depth : Nat} {t name operands : Text} {e : MacroError} {steps : List ExpansionStep}
      {agenda last : List (Nat × Text)} (hCall : m.call? t = some (name, operands))
      (hExpand : m.expand name operands = .error e) (h : Unfolds m agenda steps last) :
      Unfolds m ((depth, t) :: agenda) (.enter depth t name :: .refuse e :: steps) last
  | enter {depth : Nat} {t name operands : Text} {lines : List Text} {steps : List ExpansionStep}
      {agenda last : List (Nat × Text)} (hCall : m.call? t = some (name, operands))
      (hExpand : m.expand name operands = .ok lines)
      (h : Unfolds m (lines.map (depth + 1, ·) ++ agenda) steps last) :
      Unfolds m ((depth, t) :: agenda) (.enter depth t name :: steps) last

namespace Unfolds

variable {m : MacroTable}

theorem trans {a b c : List (Nat × Text)} {steps steps' : List ExpansionStep}
    (h : Unfolds m a steps b) (h' : Unfolds m b steps' c) : Unfolds m a (steps ++ steps') c := by
  induction h with
  | done => exact h'
  | leaf hCall _ ih => exact .leaf hCall (ih h')
  | refuse hCall hExpand _ ih => exact .refuse hCall hExpand (ih h')
  | enter hCall hExpand _ ih => exact .enter hCall hExpand (ih h')

theorem unique {a : List (Nat × Text)} {steps steps' : List ExpansionStep}
    (h : Unfolds m a steps []) (h' : Unfolds m a steps' []) : steps = steps' := by
  -- the first line, and what it stands for, leave one step to take
  generalize hLast : ([] : List (Nat × Text)) = last at h
  induction h generalizing steps' with
  | done =>
    subst hLast
    cases h'
    rfl
  | leaf hCall _ ih =>
    cases h' with
    | leaf _ h' => rw [ih h' hLast]
    | refuse hCall' _ _ | enter hCall' _ _ => cases hCall.symm.trans hCall'
  | refuse hCall hExpand _ ih =>
    cases h' with
    | leaf hCall' _ => cases hCall'.symm.trans hCall
    | refuse hCall' hExpand' h' =>
      cases hCall.symm.trans hCall'
      cases hExpand.symm.trans hExpand'
      rw [ih h' hLast]
    | enter hCall' hExpand' _ =>
      cases hCall.symm.trans hCall'
      cases hExpand.symm.trans hExpand'
  | enter hCall hExpand _ ih =>
    cases h' with
    | leaf hCall' _ => cases hCall'.symm.trans hCall
    | refuse hCall' hExpand' _ =>
      cases hCall.symm.trans hCall'
      cases hExpand.symm.trans hExpand'
    | enter hCall' hExpand' h' =>
      cases hCall.symm.trans hCall'
      cases hExpand.symm.trans hExpand'
      rw [ih h' hLast]

theorem exists_refuse_mem {a : List (Nat × Text)} {steps : List ExpansionStep} {depth : Nat}
    {t t' : Text} {e : MacroError} (h : Unfolds m a steps []) (ht : (depth, t) ∈ a)
    (hReaches : Relation.ReflTransGen m.Nested t t') (hRefuses : m.Refuses t' e) :
    .refuse e ∈ steps := by
  generalize hLast : ([] : List (Nat × Text)) = last at h
  induction h generalizing depth t with
  | done =>
    subst hLast
    cases ht
  | leaf hCall _ ih =>
    rcases List.mem_cons.mp ht with hHead | hRest
    · cases hHead
      -- below a leaf there is no call
      obtain ⟨_, _, hRefused, -⟩ := hRefuses
      obtain ⟨_, -, hBranch⟩ := MacroTable.Branch.of_reflTransGen hReaches (.last hRefused)
      obtain ⟨_, hCall'⟩ := hBranch.exists_call
      cases hCall.symm.trans hCall'
    · exact List.mem_cons_of_mem _ (ih hRest hReaches hLast)
  | refuse hCall hExpand _ ih =>
    rcases List.mem_cons.mp ht with hHead | hRest
    · cases hHead
      rcases hReaches.cases_head with rfl | ⟨u, hNested, -⟩
      · cases hExpand.symm.trans (hRefuses.expand_eq hCall)
        simp
      · obtain ⟨_, hExpand', -⟩ := hNested.exists_lines hCall
        cases hExpand.symm.trans hExpand'
    · exact List.mem_cons_of_mem _ (List.mem_cons_of_mem _ (ih hRest hReaches hLast))
  | enter hCall hExpand _ ih =>
    rcases List.mem_cons.mp ht with hHead | hRest
    · cases hHead
      rcases hReaches.cases_head with rfl | ⟨u, hNested, hReaches⟩
      · cases hExpand.symm.trans (hRefuses.expand_eq hCall)
      · obtain ⟨_, hExpand', hMem⟩ := hNested.exists_lines hCall
        cases hExpand.symm.trans hExpand'
        exact List.mem_cons_of_mem _
          (ih (List.mem_append_left _ (List.mem_map_of_mem hMem)) hReaches hLast)
    · exact List.mem_cons_of_mem _ (ih (List.mem_append_right _ hRest) hReaches hLast)

end Unfolds

namespace Draft

def labelled (d : Draft) (line : Nat) (t : Text) : Except LineError Draft :=
  let (labels, body) := Line.labels t
  located line (labels.foldlM (fun d name => d.defineLabel name (isDataLine (trim body))) d)

def leaf (d : Draft) (line : Nat) (t : Text) : Except LineError Draft := do
  let body := trim (Line.labels t).2
  let d ← d.labelled line t
  if body = [] then return d
  else if body.head? = some '.' then d.directive line body
  else
    match Line.mnemonic? body with
    | none => throw (Cause.atLine (.statement (.unknownInstruction body)) line)
    | some (name, operands) =>
      if d.region = .data then
        throw ⟨line, .statement (.instructionInData name),
          some "instructions go after a .text directive"⟩
      else d.appendInstruction line name operands

def enter (d : Draft) (line : Nat) (t name : Text) : Except LineError Draft := do
  let d ← d.labelled line t
  if d.region = .data then
    throw ⟨line, .statement (.instructionInData name),
      some "instructions go after a .text directive"⟩
  else return d

def carryOut (line : Nat) (d : Draft) : ExpansionStep → Except LineError Draft
  | .leaf t => d.leaf line t
  | .enter _ t name => d.enter line t name
  | .refuse e => .error (Cause.atLine (.expansion e) line)

/-! ### What stays as it is -/

/-- No macro is defined and no instruction added. -/
structure Keeps (d d' : Draft) : Prop where
  macros : d'.macros = d.macros
  code : d'.code = d.code

variable {d d' : Draft} {line : Nat} {t : Text}

theorem Keeps.trans {d₁ : Draft} (h : d.Keeps d₁) (h' : d₁.Keeps d') : d.Keeps d' :=
  ⟨h'.macros.trans h.macros, h'.code.trans h.code⟩

theorem keeps_of_defineLabel {name : Text} {namesData : Bool}
    (h : d.defineLabel name namesData = .ok d') : d.Keeps d' := by
  unfold defineLabel at h
  split at h
  · cases h
  split at h <;> cases h <;> exact ⟨rfl, rfl⟩

theorem keeps_of_labelled (h : d.labelled line t = .ok d') : d.Keeps d' :=
  foldlM_preserves (P := fun d₁ => d.Keeps d₁) (fun _ _ _ hKeeps hd =>
    hKeeps.trans (keeps_of_defineLabel hd)) ⟨rfl, rfl⟩ (located_eq_ok_iff.mp h)

theorem keeps_of_defineConstant {operands : Text} {substituted : Bool}
    (h : d.defineConstant operands substituted = .ok d') : d.Keeps d' := by
  unfold defineConstant at h
  split at h
  · split at h
    · cases h
    split at h <;> cases h
    exact ⟨rfl, rfl⟩
  · cases h

theorem keeps_of_declareGlobals {names : List Text}
    (h : d.declareGlobals line names = .ok d') : d.Keeps d' := by
  refine foldlM_preserves (P := fun d₁ => d.Keeps d₁) ?_ ⟨rfl, rfl⟩ h
  intro name d₁ d₂ hKeeps hd
  split at hd <;> cases hd
  exact hKeeps.trans ⟨rfl, rfl⟩

theorem keeps_of_directive (h : d.directive line t = .ok d') : d.Keeps d' := by
  unfold directive at h
  split at h
  · cases h
  next name operands hDirective =>
  split at h
  · cases h
    exact ⟨rfl, rfl⟩
  · cases h
    exact ⟨rfl, rfl⟩
  · exact keeps_of_defineConstant (located_eq_ok_iff.mp h)
  · exact keeps_of_declareGlobals (located_eq_ok_iff.mp h)
  · split at h <;> cases h
    exact ⟨rfl, rfl⟩
  · cases h
  · cases h
    exact ⟨rfl, rfl⟩
  · obtain ⟨item, -, h⟩ := bind_eq_ok_iff.mp h
    cases h
    exact ⟨rfl, rfl⟩
  · cases h

theorem macros_of_leaf (h : d.leaf line t = .ok d') : d'.macros = d.macros := by
  obtain ⟨d₁, hLabels, h⟩ := bind_eq_ok_iff.mp h
  rw [← (keeps_of_labelled hLabels).macros]
  split at h
  · cases h; rfl
  split at h
  · exact (keeps_of_directive h).macros
  split at h
  · cases h
  split at h
  · cases h
  unfold appendInstruction at h
  split at h
  · cases h
  · obtain ⟨p, -, h⟩ := bind_eq_ok_iff.mp h
    cases h
    rfl

theorem macros_of_enter {name : Text} (h : d.enter line t name = .ok d') :
    d'.macros = d.macros := by
  obtain ⟨d₁, hLabels, h⟩ := bind_eq_ok_iff.mp h
  rw [← (keeps_of_labelled hLabels).macros]
  split at h <;> cases h
  rfl

theorem macros_of_carryOut {step : ExpansionStep} (h : d.carryOut line step = .ok d') :
    d'.macros = d.macros := by
  cases step with
  | leaf t => exact macros_of_leaf h
  | enter depth t name => exact macros_of_enter h
  | refuse e => cases h

/-! ### One statement -/

theorem statement_eq_leaf {nesting : Nat} (h : d.macros.call? t = none) :
    d.statement nesting line t = d.leaf line t := by
  rw [statement]
  refine bind_congr_of_ok fun d₁ hLabels => ?_
  rw [← (keeps_of_labelled hLabels).macros] at h
  unfold MacroTable.call? at h
  dsimp only at h ⊢
  split
  · rfl
  next hBody =>
  split
  · rfl
  next hDot =>
  cases hName : Line.mnemonic? (trim (Line.labels t).2) with
  | none => rfl
  | some call =>
    have hPlain : d₁.macros.contains call.1 = false := by
      simpa [hBody, hDot, hName, Option.filter] using h
    simp only [hPlain, Bool.false_eq_true, if_false]

theorem statement_eq_enter {nesting : Nat} {name operands : Text}
    (h : d.macros.call? t = some (name, operands)) :
    d.statement nesting line t = d.enter line t name >>= fun d₁ =>
      match nesting with
      | 0 => .error (Cause.atLine (.expansion (.recursionLimit name)) line)
      | nesting + 1 =>
        match d.macros.expand name operands with
        | .error e => .error (Cause.atLine (.expansion e) line)
        | .ok lines => lines.foldlM (fun d t => d.statement nesting line t) d₁ := by
  rw [statement, enter, bind_assoc]
  -- the labels come first, and leave the macros in which the name is looked up
  refine bind_congr_of_ok fun d₁ hLabels => ?_
  rw [← (keeps_of_labelled hLabels).macros] at h ⊢
  unfold MacroTable.call? at h
  dsimp only at h ⊢
  split at h
  · cases h
  next hBody =>
  rw [not_or] at hBody
  obtain ⟨hName, hMacro⟩ := Option.filter_eq_some_iff.mp h
  rw [if_neg hBody.1, if_neg hBody.2, hName]
  dsimp only at hMacro ⊢
  rw [if_pos hMacro]
  split <;> rfl

/-- A new instruction is added behind those that there are, and no macro is defined. -/
theorem appended_of_appendInstruction {name operands : Text}
    (h : d.appendInstruction line name operands = .ok d') :
    d'.macros = d.macros ∧ ∃ p : Pending, d'.code = d.code.push p ∧ p.line = line := by
  unfold appendInstruction at h
  split at h
  · cases h
  obtain ⟨p, hp, h⟩ := bind_eq_ok_iff.mp h
  cases h
  have hp := located_eq_ok_iff.mp hp
  rw [codeAddress_eq] at hp
  obtain ⟨⟨-, hLine, -⟩, -⟩ := Pending.ofOperands_eq_ok hp
  exact ⟨rfl, p, rfl, hLine⟩

theorem macros_of_statement {nesting : Nat} (h : d.statement nesting line t = .ok d') :
    d'.macros = d.macros :=
  related_of_statement (R := fun d d' => d'.macros = d.macros) (fun _ => rfl)
    (fun h h' => h'.trans h) (fun h => (keeps_of_defineLabel h).macros)
    (fun h => (keeps_of_directive h).macros) (fun h => (appended_of_appendInstruction h).1) h

theorem prefix_code_of_statement {nesting : Nat} (h : d.statement nesting line t = .ok d') :
    d.code.toList <+: d'.code.toList := by
  refine related_of_statement (R := fun d d' => d.code.toList <+: d'.code.toList)
    (fun _ => List.prefix_rfl) List.IsPrefix.trans ?_ ?_ ?_ h
  · intro d d' name namesData h
    rw [(keeps_of_defineLabel h).code]
  · intro d d' body h
    rw [(keeps_of_directive h).code]
  · intro d d' name operands h
    obtain ⟨-, p, hCode, -⟩ := appended_of_appendInstruction h
    exact ⟨[p], by rw [hCode, Array.toList_push]⟩

end Draft

end NiosBoard
