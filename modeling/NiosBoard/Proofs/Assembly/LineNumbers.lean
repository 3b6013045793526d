import NiosBoard.Assembly.Program
import NiosBoard.Proofs.Assembly.SourceLines
import NiosBoard.Proofs.Table

/-! # Line numbers

The assembler carries line numbers along and never looks at one: reading a line by another number,
in a draft whose numbers have all been changed alike, changes the numbers in the outcome and nothing
else. The same holds of the blank lines in the body of a macro, which a call expands to nothing.
-/

namespace NiosBoard

open Text

variable {f : Nat → Nat}

/-! ### Other numbers -/

def LineError.relined (f : Nat → Nat) (e : LineError) : LineError := { e with line := f e.line }

def Pending.relined (f : Nat → Nat) (p : Pending) : Pending := { p with line := f p.line }

def Variable.relined (f : Nat → Nat) (v : Variable) : Variable := { v with line := f v.line }

/-- A recording by other numbers, and without blank lines. -/
def Recording.relined (f : Nat → Nat) (r : Recording) : Recording :=
  { r with line := f r.line, body := r.body.filter (!·.isEmpty) }

def MacroDef.condensed (m : MacroDef) : MacroDef := { m with body := m.body.filter (!·.isEmpty) }

def MacroTable.condensed (m : MacroTable) : MacroTable := ⟨m.table.map MacroDef.condensed⟩

def Program.relined (f : Nat → Nat) (p : Program) : Program :=
  { p with globals := p.globals.map f, lines := p.lines.map f }

/-- A draft by other numbers, and without blank lines in the bodies of macros. -/
def Draft.relined (f : Nat → Nat) (d : Draft) : Draft :=
  { d with
    code := d.code.map (·.relined f)
    data := d.data.map (·.relined f)
    globals := d.globals.map f
    macros := d.macros.condensed
    recording := d.recording.map (·.relined f) }

/-- An outcome by other numbers. -/
def relinedWith {α β : Type} (f : Nat → Nat) (g : α → β) : Except LineError α → Except LineError β
  | .ok a => .ok (g a)
  | .error e => .error (e.relined f)

section Outcomes

variable {α β α' β' γ : Type}

theorem relinedWith_bind {x : Except LineError α} {k : α → Except LineError β} {g : α → α'}
    {g' : β → β'} {k' : α' → Except LineError β'}
    (h : ∀ a, k' (g a) = relinedWith f g' (k a)) :
    relinedWith f g x >>= k' = relinedWith f g' (x >>= k) := by
  cases x with
  | ok a => exact h a
  | error e => rfl

theorem located_map (g : α → α') (line : Nat) (x : Except Cause α) :
    located (f line) (g <$> x) = relinedWith f g (located line x) := by
  cases x <;> rfl

theorem foldlM_relinedWith {step : β → α → Except LineError β} {step' : β' → α → Except LineError β'}
    {g : β → β'} (h : ∀ b a, step' (g b) a = relinedWith f g (step b a)) (l : List α) (b : β) :
    l.foldlM step' (g b) = relinedWith f g (l.foldlM step b) := by
  induction l generalizing b with
  | nil => rfl
  | cons a l ih =>
    rw [List.foldlM_cons, List.foldlM_cons, h]
    exact relinedWith_bind fun b => ih b

theorem mapM_map_relinedWith {step : α → Except LineError β} {step' : α' → Except LineError β}
    {g : α → α'} (h : ∀ a, step' (g a) = relinedWith f id (step a)) (l : List α) :
    (l.map g).mapM step' = relinedWith f id (l.mapM step) := by
  induction l with
  | nil => rfl
  | cons a l ih =>
    rw [List.map_cons, List.mapM_cons, List.mapM_cons, h, ih]
    refine relinedWith_bind fun b => ?_
    exact relinedWith_bind fun bs => rfl

end Outcomes

/-! ### Macros -/

namespace MacroTable

variable (m : MacroTable)

theorem get?_condensed (name : Text) :
    m.condensed.get? name = (m.get? name).map MacroDef.condensed :=
  Table.get?_map ..

theorem contains_condensed (name : Text) : m.condensed.contains name = m.contains name := by
  rw [contains, contains, get?_condensed, Option.isSome_map]

theorem define_condensed (name : Text) (params body : List Text) :
    m.condensed.define name params (body.filter (!·.isEmpty)) =
      condensed <$> m.define name params body := by
  rw [define, define, contains_condensed]
  split
  · rfl
  split
  · rfl
  · simp only [condensed, Functor.map, Except.map, Table.map_insert]
    rfl

/-- Without its blank lines a body is expanded with the same texts for its parameters. -/
theorem expand_condensed (name args : Text) :
    (∃ e, m.expand name args = .error e ∧ m.condensed.expand name args = .error e) ∨
      ∃ (g : Text → Option Text) (body : List Text), m.expand name args = .ok (body.map (substitute g)) ∧
        m.condensed.expand name args = .ok ((body.filter (!·.isEmpty)).map (substitute g)) := by
  rw [expand, expand, get?_condensed]
  cases m.get? name with
  | none => exact .inl ⟨_, rfl, rfl⟩
  | some definition =>
    simp only [Option.map_some, MacroDef.condensed]
    split
    · exact .inl ⟨_, rfl, rfl⟩
    · exact .inr ⟨_, _, rfl, rfl⟩

end MacroTable

namespace Draft

variable {d : Draft}

/-! ### Statements -/

theorem defineLabel_relined (d : Draft) (name : Text) (namesData : Bool) :
    (d.relined f).defineLabel name namesData = relined f <$> d.defineLabel name namesData := by
  have hSize : (d.relined f).code.size = d.code.size := Array.size_map
  rw [defineLabel, defineLabel, hSize]
  show (if d.defined.contains name then _ else if namesData || d.region = .data then _ else _) = _
  split
  · rfl
  split
  · rfl
  · rfl

theorem defineConstant_relined (d : Draft) (operands : Text) (substituted : Bool) :
    (d.relined f).defineConstant operands substituted =
      relined f <$> d.defineConstant operands substituted := by
  simp only [defineConstant]
  split
  · split
    · rfl
    split
    · rfl
    · rfl
  · rfl

theorem declareGlobals_relined (d : Draft) (line : Nat) (names : List Text) :
    (d.relined f).declareGlobals (f line) names = relined f <$> d.declareGlobals line names := by
  refine foldlM_map_of_mem ?_ d
  intro d name _
  split
  · simp only [relined, ← Table.map_insert]
    rfl
  · rfl

theorem directive_relined (d : Draft) (line : Nat) (t : Text) :
    (d.relined f).directive (f line) t = relinedWith f (relined f) (d.directive line t) := by
  rw [directive, directive]
  split
  · rfl
  next name operands _ =>
  split
  · rfl
  · rfl
  · rw [defineConstant_relined, located_map]
  · rw [declareGlobals_relined, located_map]
  · split
    · rfl
    · simp only [relinedWith, relined]
      rfl
  · rfl
  · rfl
  · next kind _ =>
    cases DataItem.ofOperands kind operands with
    | error e => rfl
    | ok item =>
      simp only [relinedWith, relined, located, bind, Except.bind, pure, Except.pure, Array.map_push]
      rfl
  · rfl

end Draft

theorem Pending.ofOperands_relined (o : Opcode) (line : Nat) (address : Word) (operands : Text) :
    ofOperands o (f line) address operands = relined f <$> ofOperands o line address operands := by
  simp only [ofOperands]
  split
  · split <;> simp only [map_bind, map_pure, relined]
  · simp only [map_bind, map_pure, relined]
  · simp only [map_bind, map_pure, relined]
  · simp only [map_bind]
    refine congrArg _ (funext fun b => ?_)
    split
    · rfl
    · simp only [map_bind, map_pure, relined]
  · simp only [map_bind, map_pure, relined]
  · simp only [map_bind, map_pure, relined]
  · simp only [map_bind, map_pure, relined]
  · simp only [map_bind, map_pure, relined]
  · rfl
  · rfl

theorem Pending.instruction_relined (p : Pending) (symbols : Symbols) :
    (p.relined f).instruction symbols = relinedWith f id (p.instruction symbols) := by
  have hValue : (p.relined f).value symbols = relinedWith f id (p.value symbols) := by
    have hExpr : (p.relined f).expr = p.expr := rfl
    rw [value, value, hExpr]
    cases p.expr with
    | none => rfl
    | some t =>
      simp only
      cases Expression.evaluate symbols t with
      | ok v => rfl
      | error e => rfl
  have hOpcode : (p.relined f).opcode = p.opcode := rfl
  rw [instruction, instruction, hValue, hOpcode]
  refine relinedWith_bind fun v => ?_
  cases p.opcode <;> rfl

namespace Draft

variable {d : Draft}

theorem appendInstruction_relined (d : Draft) (line : Nat) (name operands : Text) :
    (d.relined f).appendInstruction (f line) name operands =
      relinedWith f (relined f) (d.appendInstruction line name operands) := by
  have hSize : (d.relined f).code.size = d.code.size := Array.size_map
  rw [appendInstruction, appendInstruction]
  split
  · rfl
  · rw [hSize, Pending.ofOperands_relined, located_map]
    refine relinedWith_bind fun p => ?_
    simp only [pure, Except.pure, relinedWith, relined, Array.map_push]

/-! ### Blank lines -/

/-- Blank lines in the body of a macro do nothing when it is called. -/
theorem foldlM_statement_filter (nesting line : Nat) (g : Text → Option Text) (body : List Text)
    (d : Draft) :
    ((body.filter (!·.isEmpty)).map (substitute g)).foldlM (fun d t => statement nesting line t d) d =
      (body.map (substitute g)).foldlM (fun d t => statement nesting line t d) d := by
  induction body generalizing d with
  | nil => rfl
  | cons t body ih =>
    cases t with
    | nil =>
      rw [List.map_cons, List.foldlM_cons, substitute_nil, statement_nil]
      exact ih d
    | cons c t =>
      rw [List.filter_cons_of_pos rfl, List.map_cons, List.map_cons, List.foldlM_cons,
        List.foldlM_cons]
      exact bind_congr_of_ok fun d' _ => ih d'

/-! ### Reading a source -/

theorem substituteConstants_relined (d : Draft) (t : Text) :
    (d.relined f).substituteConstants t = d.substituteConstants t := rfl

/-- Induction on the depth of macro calls. -/
theorem statement_relined (nesting line : Nat) (t : Text) (d : Draft) :
    (d.relined f).statement nesting (f line) t =
      relinedWith f (relined f) (d.statement nesting line t) := by
  induction nesting using Nat.strongRecOn generalizing d t with
  | ind nesting ih =>
    rw [statement, statement]
    simp only
    rw [foldlM_map_of_mem (fun d name _ => defineLabel_relined d name _), located_map]
    refine relinedWith_bind fun d => ?_
    split
    · rfl
    split
    · exact directive_relined d line _
    split
    · rfl
    next name operands _ =>
    have hContains : (d.relined f).macros.contains name = d.macros.contains name :=
      MacroTable.contains_condensed d.macros name
    rw [hContains]
    show (if d.region = .data then _ else _) = _
    split
    · rfl
    split
    · split
      · rfl
      next nesting =>
      have hExpand : (d.relined f).macros.expand name operands =
          d.macros.condensed.expand name operands := rfl
      rw [hExpand]
      rcases d.macros.expand_condensed name operands with ⟨e, hFails, hFails'⟩ | ⟨g, body, hBody, hBody'⟩
      · rw [hFails, hFails']
        rfl
      · rw [hBody, hBody']
        simp only
        rw [foldlM_statement_filter]
        exact foldlM_relinedWith (fun d t => ih nesting (Nat.lt_succ_self nesting) t d) _ d
    · exact appendInstruction_relined d line name operands

/-! ### Once more -/

theorem relined_relined (g : Nat → Nat) (d : Draft) :
    (d.relined f).relined g = d.relined (g ∘ f) := by
  have hMacros : d.macros.condensed.condensed = d.macros.condensed := by
    simp only [MacroTable.condensed, Table.map_map]
    congr 2
    funext m
    simp [MacroDef.condensed]
  have hRecording : (d.recording.map (·.relined f)).map (·.relined g) =
      d.recording.map (·.relined (g ∘ f)) := by
    cases d.recording with
    | none => rfl
    | some r => simp [Recording.relined]
  simp only [relined, hMacros, hRecording, Array.map_map, Table.map_map]
  rfl

theorem relinedWith_relined (g : Nat → Nat) (x : Except LineError Draft) :
    relinedWith g (relined g) (relinedWith f (relined f) x) =
      relinedWith (g ∘ f) (relined (g ∘ f)) x := by
  cases x with
  | ok d => exact congrArg Except.ok (relined_relined g d)
  | error e => rfl

theorem closeRecording_relined (d : Draft) (r : Recording) :
    (d.relined f).closeRecording (r.relined f) =
      relinedWith f (relined f) (d.closeRecording r) := by
  have hBody : (r.relined f).body.toList = r.body.toList.filter (!·.isEmpty) := Array.toList_filter
  have hDefine : (d.relined f).macros.define (r.relined f).name (r.relined f).params
      (r.relined f).body.toList =
      MacroTable.condensed <$> d.macros.define r.name r.params r.body.toList := by
    rw [hBody]
    exact d.macros.define_condensed r.name r.params r.body.toList
  rw [closeRecording, closeRecording, hDefine]
  cases d.macros.define r.name r.params r.body.toList with
  | ok macros => rfl
  | error e => rfl

theorem relined_push (d : Draft) (r : Recording) (t : Text) :
    relined id { d.relined f with
      recording := some { r.relined f with body := (r.relined f).body.push t } } =
      relined f { d with recording := some { r with body := r.body.push t } } := by
  have hBody : ((r.relined f).body.push t).filter (!·.isEmpty) = (r.body.push t).filter (!·.isEmpty) := by
    simp [← Array.toList_inj, Recording.relined, List.filter_append]
  have hDraft : (d.relined f).relined id = d.relined f := relined_relined id d
  calc
    _ = { (d.relined f).relined id with
          recording := some (Recording.relined id
            { r.relined f with body := (r.relined f).body.push t }) } := rfl
    _ = _ := by
      rw [hDraft, Recording.relined, hBody]
      rfl

/-- A blank line that is read into the body of a macro is left out of account. -/
theorem readLine_relined (d : Draft) (line : Nat) (raw : Text) :
    relinedWith id (relined id) ((d.relined f).readLine (f line) raw) =
      relinedWith f (relined f) (d.readLine line raw) := by
  have hSame : ∀ x : Except LineError Draft,
      relinedWith id (relined id) (relinedWith f (relined f) x) = relinedWith f (relined f) x :=
    relinedWith_relined id
  rw [readLine, readLine]
  cases hRecording : d.recording with
  | none =>
    have hNone : (d.relined f).recording = none := by rw [relined, hRecording]; rfl
    simp only [hNone]
    split
    · rw [defineConstant_relined, located_map, hSame]
    · rw [substituteConstants_relined, statement_relined, hSame]
  | some r =>
    have hSome : (d.relined f).recording = some (r.relined f) := by rw [relined, hRecording]; rfl
    simp only [hSome]
    split
    · rw [closeRecording_relined, hSame]
    · exact congrArg Except.ok (relined_push d r _)

/-- A line with nothing on it changes nothing, or adds a blank line to the body of a macro. -/
theorem readLine_of_blank {raw : Text} (h : trim (stripComment raw) = []) (d : Draft) (line : Nat) :
    ∃ d', d.readLine line raw = .ok d' ∧ d'.relined id = d.relined id := by
  have hNothing : d.substituteConstants [] = [] := substitute_nil _
  rw [readLine, h]
  simp only [hNothing]
  cases hRecording : d.recording with
  | none => exact ⟨d, statement_nil maxNesting line d, rfl⟩
  | some r =>
    have hBody : (r.body.push []).filter (!·.isEmpty) = r.body.filter (!·.isEmpty) := by simp
    refine ⟨_, rfl, ?_⟩
    rw [relined, relined, hRecording]
    simp only [Option.map_some, Recording.relined, hBody]

/-! ### The second pass -/

theorem layout_relined (address : Word) (symbols : Table Word) (vs : List Variable) :
    layout address symbols (vs.map (·.relined f)) =
      relinedWith f id (layout address symbols vs) := by
  induction vs generalizing address symbols with
  | nil => rfl
  | cons v vs ih =>
    have hItem : (v.relined f).item = v.item := rfl
    have hLine : (v.relined f).line = f v.line := rfl
    have hLabels : (v.relined f).labels = v.labels := rfl
    rw [List.map_cons, layout, layout, hItem, hLabels, hLine, ih]
    split <;> rfl

theorem emitVariable_relined (symbols : Symbols) (image : Array Byte) (v : Variable) :
    emitVariable symbols image (v.relined f) = relinedWith f id (emitVariable symbols image v) := by
  have hItem : (v.relined f).item = v.item := rfl
  rw [emitVariable, emitVariable, hItem]
  cases v.item.emit (Board.ramStart + BitVec.ofNat 32 image.size) symbols with
  | ok bytes => rfl
  | error e => rfl

theorem instructions_relined (d : Draft) (symbols : Symbols) :
    (d.relined f).instructions symbols = relinedWith f id (d.instructions symbols) := by
  have hCode : (d.relined f).code.toList = d.code.toList.map (·.relined f) := Array.toList_map
  rw [instructions, instructions, hCode]
  exact mapM_map_relinedWith (Pending.instruction_relined · symbols) _

theorem link_relined (d : Draft) :
    (d.relined f).link = relinedWith f (Program.relined f) d.link := by
  have hStart : (d.relined f).dataStart = d.dataStart := by
    rw [dataStart, dataStart]
    exact congrArg (fun n => Board.ramStart + BitVec.ofNat 32 (4 * n) + 4) Array.size_map
  have hData : (d.relined f).data.toList = d.data.toList.map (·.relined f) := Array.toList_map
  have hSymbols : (d.relined f).symbols = d.symbols := rfl
  have hWaiting : (d.relined f).waiting = d.waiting := rfl
  rw [link, link, hStart, hData, hSymbols, hWaiting, layout_relined]
  refine relinedWith_bind fun (placed, dataEnd) => ?_
  show instructions _ _ >>= _ = _
  rw [instructions_relined]
  refine relinedWith_bind fun instructions => ?_
  simp only [id_eq]
  have hImage : (d.relined f).data.foldlM (emitVariable (place d.waiting dataEnd placed).get?)
      (codeImage instructions).toArray =
      relinedWith f id (d.data.foldlM (emitVariable (place d.waiting dataEnd placed).get?)
        (codeImage instructions).toArray) := by
    rw [← Array.foldlM_toList, ← Array.foldlM_toList, hData, List.foldlM_map]
    exact foldlM_relinedWith (g := id) (emitVariable_relined _) _ _
  rw [hImage]
  refine relinedWith_bind fun image => ?_
  have hLines : (d.relined f).code.map (·.line) = (d.code.map (·.line)).map f := by
    rw [relined, Array.map_map, Array.map_map]
    rfl
  rw [hLines]
  rfl

end Draft

end NiosBoard
