import NiosBoard.Proofs.Assembly.Marks
import NiosBoard.Proofs.Assembly.SecondPass
import NiosBoard.Proofs.Expression.Names

/-! # A label that nothing mentions

Forgetting a label and reading on is the same as reading on and forgetting it then, as long as no
statement defines the label once more. When all is read, the second pass gives the same program but
for the one symbol, if no expression mentions it.
-/

namespace NiosBoard

open Text

def Variable.without (name : Text) (v : Variable) : Variable :=
  { v with labels := v.labels.filter (· != name) }

@[simp] theorem Variable.without_labels (name : Text) (v : Variable) :
    (v.without name).labels = v.labels.filter (· != name) := rfl

@[simp] theorem Variable.without_item (name : Text) (v : Variable) :
    (v.without name).item = v.item := rfl

namespace Draft

/-- A draft that has not seen the label. -/
def without (name : Text) (d : Draft) : Draft :=
  { d with
    data := d.data.map (·.without name)
    waiting := d.waiting.filter (· != name)
    defined := d.defined.filter (· != name)
    symbols := d.symbols.erase name }

variable {name : Text} {d : Draft}

@[simp] theorem without_macros : (d.without name).macros = d.macros := rfl

@[simp] theorem without_region : (d.without name).region = d.region := rfl

@[simp] theorem without_recording : (d.without name).recording = d.recording := rfl

@[simp] theorem without_ended : (d.without name).ended = d.ended := rfl

end Draft

def Program.without (name : Text) (p : Program) : Program :=
  { p with symbols := p.symbols.erase name }

theorem map_located {α β : Type} (g : α → β) (line : Nat) (x : Except Cause α) :
    located line (g <$> x) = g <$> located line x := by
  cases x <;> rfl

namespace Draft

variable {name : Text} {d : Draft} {line nesting : Nat} {t raw : Text}

/-! ### Statements -/

theorem defineLabel_without {other : Text} (hOther : other ≠ name) (d : Draft) (namesData : Bool) :
    (d.without name).defineLabel other namesData = without name <$> d.defineLabel other namesData := by
  have hDefined : (d.without name).defined.contains other = d.defined.contains other := by
    simp [without, hOther]
  rw [defineLabel, defineLabel, hDefined, without_region]
  split
  · rfl
  split
  · simp [without, Functor.map, Except.map, List.filter_append, hOther]
  · simp [without, Functor.map, Except.map, Table.erase_insert_of_ne _ hOther, hOther]

theorem defineConstant_without (d : Draft) (operands : Text) (substituted : Bool) :
    (d.without name).defineConstant operands substituted =
      without name <$> d.defineConstant operands substituted := by
  simp only [defineConstant]
  split
  · split
    · rfl
    split
    · rfl
    · rfl
  · rfl

theorem declareGlobals_without (d : Draft) (line : Nat) (names : List Text) :
    (d.without name).declareGlobals line names = without name <$> d.declareGlobals line names := by
  refine foldlM_map_of_mem ?_ d
  intro d other _
  split <;> rfl

theorem directive_without (d : Draft) (line : Nat) (t : Text) :
    (d.without name).directive line t = without name <$> d.directive line t := by
  rw [directive, directive]
  split
  · rfl
  next word operands _ =>
  split
  · rfl
  · rfl
  · rw [defineConstant_without, map_located]
  · rw [declareGlobals_without, map_located]
  · split <;> rfl
  · rfl
  · rfl
  · next kind _ =>
    cases DataItem.ofOperands kind operands with
    | error e => rfl
    | ok item =>
      simp only [without, located, bind, Except.bind, pure, Except.pure, Functor.map, Except.map,
        Array.map_push]
      rfl
  · rfl

theorem appendInstruction_without (d : Draft) (line : Nat) (word operands : Text) :
    (d.without name).appendInstruction line word operands =
      without name <$> d.appendInstruction line word operands := by
  rw [appendInstruction, appendInstruction]
  split
  · rfl
  next o _ =>
  dsimp only [without]
  cases located line (Pending.ofOperands o line (codeAddress d.code.size) operands) <;> rfl

/-- One statement after another, if forgetting the label goes through each. -/
theorem foldlM_statement_without
    (hStatement : ∀ {d : Draft} {r : Trace} {t : Text},
      (∀ k ∈ (r.statement d.macros line nesting t).marks, k.label? ≠ some name) →
        (d.without name).statement nesting line t = without name <$> d.statement nesting line t)
    {ts : List Text} {r : Trace}
    (h : ∀ k ∈ (ts.foldl (Trace.statement d.macros line nesting) r).marks, k.label? ≠ some name) :
    ts.foldlM (fun d t => statement nesting line t d) (d.without name) =
      without name <$> ts.foldlM (fun d t => statement nesting line t d) d := by
  induction ts generalizing d r with
  | nil => rfl
  | cons t ts ih =>
    have hHere : ∀ k ∈ (r.statement d.macros line nesting t).marks, k.label? ≠ some name := by
      intro k hk
      have hPrefix := Trace.prefix_marks_foldl (Trace.prefix_marks_statement d.macros line nesting)
        ts (r.statement d.macros line nesting t)
      exact h k (hPrefix.subset hk)
    rw [List.foldlM_cons, List.foldlM_cons, hStatement hHere]
    refine map_bind_of_ok fun d₁ hd₁ => ih (r := r.statement d.macros line nesting t) ?_
    rw [macros_of_statement hd₁]
    exact h

/-- Induction on the depth of macro calls. The trace of the statement tells which labels it and the
bodies of its calls define. -/
theorem statement_without {r : Trace} (h : ∀ k ∈ (r.statement d.macros line nesting t).marks,
      k.label? ≠ some name) :
    (d.without name).statement nesting line t = without name <$> d.statement nesting line t := by
  induction nesting using Nat.strongRecOn generalizing d r t with
  | ind nesting ih =>
    have hLabels : ∀ other ∈ (Line.labels t).1, other ≠ name := by
      rintro other hOther rfl
      obtain ⟨k, hk, hName⟩ := Trace.exists_mark_of_mem_statement hOther d.macros line nesting r
      exact h k hk hName
    rw [statement, statement]
    dsimp only
    rw [foldlM_map_of_mem (fun d other hOther => defineLabel_without (hLabels other hOther) d _),
      map_located]
    refine map_bind_of_ok fun d₁ hd₁ => ?_
    have hMacros : d₁.macros = d.macros := (keeps_of_labelled hd₁).macros
    split
    · rfl
    next hBody =>
    split
    · exact directive_without d₁ line _
    next hDot =>
    split
    · rfl
    next word operands hWord =>
    rw [without_region, without_macros]
    split
    · rfl
    split
    · next hMacro =>
      split
      · rfl
      next n =>
      cases hCalls : d₁.macros.expand word operands with
      | error e => rfl
      | ok calls =>
        rw [Trace.statement] at h
        rw [hMacros] at hMacro hCalls
        simp only [if_neg hDot, hWord, hMacro, hCalls, if_true] at h
        rw [← hMacros] at h
        exact foldlM_statement_without (fun h => ih n (Nat.lt_succ_self n) h) h
    · exact appendInstruction_without d₁ line word operands

/-! ### Lines -/

theorem closeRecording_without (d : Draft) (r : Recording) :
    (d.without name).closeRecording r = without name <$> d.closeRecording r := by
  rw [closeRecording, closeRecording, without_macros]
  cases d.macros.define r.name r.params r.body.toList <;> rfl

theorem readLine_without {r : Trace}
    (h : ∀ k ∈ (r.readLine d line raw).marks, k.label? ≠ some name) :
    (d.without name).readLine line raw = without name <$> d.readLine line raw := by
  rw [Trace.readLine] at h
  rw [readLine, readLine, without_recording]
  cases hRecording : d.recording with
  | some recording =>
    dsimp only
    split
    · exact closeRecording_without d recording
    · rfl
  | none =>
    cases hConstant : constantOperands? (trim (stripComment raw)) with
    | some operands =>
      dsimp only
      rw [defineConstant_without, map_located]
    | none =>
      rw [hRecording, hConstant] at h
      exact statement_without h

/-- Lines after a first one that is the same without the label, if those behind it are. -/
theorem readLines_cons_without {d' : Draft} {raw' : Text} {raws : List Text} {r : Trace}
    (hLine : d'.readLine line raw' = without name <$> d.readLine line raw)
    (h : ∀ k ∈ (Trace.readLines line (raw' :: raws) d' r).marks, k.label? ≠ some name)
    (hRest : ∀ {d₁ : Draft}, (∀ k ∈ (Trace.readLines (line + 1) raws (d₁.without name)
        (r.readLine d' line raw')).marks, k.label? ≠ some name) →
      readLines (line + 1) raws (d₁.without name) =
        without name <$> readLines (line + 1) raws d₁) :
    readLines line (raw' :: raws) d' = without name <$> readLines line (raw :: raws) d := by
  rw [readLines, readLines, hLine]
  refine map_bind_of_ok fun d₁ hd₁ => ?_
  rw [hd₁] at hLine
  rw [without_ended]
  split
  · rfl
  · next hEnded =>
    rw [Trace.readLines_cons hLine (Bool.eq_false_iff.mpr hEnded)] at h
    exact hRest h

theorem readLines_without {raws : List Text} {r : Trace}
    (h : ∀ k ∈ (Trace.readLines line raws (d.without name) r).marks, k.label? ≠ some name) :
    readLines line raws (d.without name) = without name <$> readLines line raws d := by
  induction raws generalizing line d r with
  | nil => rfl
  | cons raw raws ih =>
    have hHere : ∀ k ∈ (r.readLine d line raw).marks, k.label? ≠ some name := fun k hk =>
      h k ((Trace.prefix_marks_readLines_cons line raw raws (d.without name) r).subset hk)
    exact readLines_cons_without (readLine_without hHere) h fun h₁ => ih h₁

/-! ### The second pass -/

theorem place_cons (other : Text) (labels : List Text) (address : Word) (symbols : Table Word) :
    place (other :: labels) address symbols =
      place labels address (symbols.insert other address) :=
  rfl

theorem place_without (labels : List Text) (address : Word) (symbols : Table Word) :
    place (labels.filter (· != name)) address (symbols.erase name) =
      (place labels address symbols).erase name := by
  induction labels generalizing symbols with
  | nil => rfl
  | cons other labels ih =>
    by_cases hOther : other = name
    · subst hOther
      rw [List.filter_cons_of_neg (by simp), place_cons, ← ih, Table.erase_insert_self]
    · rw [List.filter_cons_of_pos (by simpa using hOther), place_cons, place_cons, ← ih,
        Table.erase_insert_of_ne _ hOther]

theorem layout_without (address : Word) (symbols : Table Word) (vs : List Variable) :
    layout address (symbols.erase name) (vs.map (·.without name)) =
      (fun placed => (placed.1.erase name, placed.2)) <$> layout address symbols vs := by
  induction vs generalizing address symbols with
  | nil => rfl
  | cons v vs ih =>
    simp only [List.map_cons, layout, Variable.without_labels, Variable.without_item, place_without,
      ih]
    split <;> rfl

/-- No expression of the draft mentions the name. -/
structure Unmentioned (d : Draft) (name : Text) : Prop where
  code : ∀ p ∈ d.code.toList, ∀ t, p.expr = some t → name ∉ Expression.names t
  data : ∀ v ∈ d.data.toList, ∀ width exprs, v.item = .values width exprs →
    ∀ t ∈ exprs, name ∉ Expression.names t

variable {symbols symbols' : Symbols}

theorem instruction_congr {p : Pending} (h : ∀ t, p.expr = some t → name ∉ Expression.names t)
    (hSymbols : ∀ other, other ≠ name → symbols' other = symbols other) :
    p.instruction symbols' = p.instruction symbols := by
  have hValue : p.value symbols' = p.value symbols := by
    rw [Pending.value, Pending.value]
    cases hExpr : p.expr with
    | none => rfl
    | some t =>
      have hAgree : ∀ other ∈ Expression.names t, symbols' other = symbols other := by
        rintro other hOther
        refine hSymbols other ?_
        rintro rfl
        exact h t hExpr hOther
      simp only [Expression.evaluate_congr hAgree]
  rw [Pending.instruction, Pending.instruction, hValue]

theorem emit_congr {item : DataItem} (address : Word)
    (h : ∀ width exprs, item = .values width exprs → ∀ t ∈ exprs, name ∉ Expression.names t)
    (hSymbols : ∀ other, other ≠ name → symbols' other = symbols other) :
    item.emit address symbols' = item.emit address symbols := by
  cases item with
  | values width exprs =>
    have hValues : exprs.mapM (Expression.evaluate symbols') =
        exprs.mapM (Expression.evaluate symbols) := by
      refine mapM_congr_of_mem fun t ht => Expression.evaluate_congr fun other hOther => ?_
      refine hSymbols other ?_
      rintro rfl
      exact h width exprs rfl t ht hOther
    rw [DataItem.emit, DataItem.emit, hValues]
  | bytes contents => rfl
  | skip length fill => rfl
  | align exponent => rfl

theorem foldlM_emit_without {vs : List Variable}
    (h : ∀ v ∈ vs, ∀ width exprs, v.item = .values width exprs →
      ∀ t ∈ exprs, name ∉ Expression.names t)
    (hSymbols : ∀ other, other ≠ name → symbols' other = symbols other) (image : Array Byte) :
    (vs.map (·.without name)).foldlM (emitVariable symbols') image =
      vs.foldlM (emitVariable symbols) image := by
  induction vs generalizing image with
  | nil => rfl
  | cons v vs ih =>
    rw [List.forall_mem_cons] at h
    have hEmit : emitVariable symbols' image (v.without name) = emitVariable symbols image v := by
      rw [emitVariable, emitVariable, Variable.without, emit_congr _ h.1 hSymbols]
    rw [List.map_cons, List.foldlM_cons, List.foldlM_cons, hEmit]
    exact bind_congr_of_ok fun image _ => ih h.2 image

theorem link_without (h : d.Unmentioned name) :
    (d.without name).link = Program.without name <$> d.link := by
  have hLayout : layout (d.without name).dataStart (d.without name).symbols
      (d.without name).data.toList =
        (fun placed => (placed.1.erase name, placed.2)) <$>
          layout d.dataStart d.symbols d.data.toList := by
    rw [← layout_without]
    simp only [without, Array.toList_map]
    rfl
  rw [link, link, hLayout]
  refine map_bind_of_ok fun placed _ => ?_
  obtain ⟨placed, dataEnd⟩ := placed
  have hPlaced : place (d.without name).waiting dataEnd (placed.erase name) =
      (place d.waiting dataEnd placed).erase name := place_without ..
  have hSymbols : ∀ other, other ≠ name →
      (place (d.without name).waiting dataEnd (placed.erase name)).get? other =
        (place d.waiting dataEnd placed).get? other := by
    intro other hOther
    rw [hPlaced, Table.get?_erase_of_ne _ hOther]
  have hCode : (d.without name).instructions
      (place (d.without name).waiting dataEnd (placed.erase name)).get? =
        d.instructions (place d.waiting dataEnd placed).get? :=
    mapM_congr_of_mem fun p hp => instruction_congr (h.code p hp) hSymbols
  have hData : ∀ image, (d.without name).data.foldlM
      (emitVariable (place (d.without name).waiting dataEnd (placed.erase name)).get?) image =
        d.data.foldlM (emitVariable (place d.waiting dataEnd placed).get?) image := by
    intro image
    rw [← Array.foldlM_toList, ← Array.foldlM_toList, ← foldlM_emit_without h.data hSymbols]
    simp only [without, Array.toList_map]
  dsimp only
  rw [hCode, map_bind]
  refine congrArg _ (funext fun instructions => ?_)
  rw [hData, map_bind, hPlaced]
  rfl

end Draft

end NiosBoard
